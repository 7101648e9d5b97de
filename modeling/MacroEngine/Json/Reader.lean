import MacroEngine.Json.Token

/-! Reading a JSON text. The arrays and objects that are open are a stack of frames; each token
either opens one, completes a value, or says what comes next. -/
namespace MacroEngine.Json

/-- An open array, an open object, or an open object whose next value belongs to `key`. -/
inductive Frame where
  | array (done : List Json)
  | object (done : List (Option String × Json))
  | member (done : List (Option String × Json)) (key : Option String)

/-- What comes next. A container that was just opened may close at once. -/
inductive Next where
  | value (mayClose : Bool)
  | key (mayClose : Bool)
  | colon
  | after (value : Json)

def step : List Frame → Next → Token → Option (List Frame × Next)
  | stack, .value _, .null => some (stack, .after .null)
  | stack, .value _, .bool b => some (stack, .after (.bool b))
  | stack, .value _, .number n => some (stack, .after (.number n))
  | stack, .value _, .string s => some (stack, .after (.string s))
  | stack, .value _, .openArray => some (.array [] :: stack, .value true)
  | stack, .value _, .openObject => some (.object [] :: stack, .key true)
  | .array done :: stack, .value true, .closeArray => some (stack, .after (.array done.reverse))
  | .object done :: stack, .key _, .string key => some (.member done key :: stack, .colon)
  | .object done :: stack, .key true, .closeObject => some (stack, .after (.object done.reverse))
  | stack, .colon, .colon => some (stack, .value false)
  | .array done :: stack, .after v, .comma => some (.array (v :: done) :: stack, .value false)
  | .array done :: stack, .after v, .closeArray =>
    some (stack, .after (.array (v :: done).reverse))
  | .member done key :: stack, .after v, .comma =>
    some (.object ((key, v) :: done) :: stack, .key false)
  | .member done key :: stack, .after v, .closeObject =>
    some (stack, .after (.object ((key, v) :: done).reverse))
  | _, _, _ => none

def build (stack : List Frame) (next : Next) : List Token → Option Json
  | [] =>
    match stack, next with
    | [], .after v => some v
    | _, _ => none
  | token :: rest => do
    let (stack, next) ← step stack next token
    build stack next rest

def ofText? (s : String) : Option Json := do
  let ts ← tokens s.toList
  build [] (.value false) ts

end MacroEngine.Json
