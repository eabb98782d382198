import GrammarFlow.Json.Reader

namespace GrammarFlow.Json

/-- A field of a record of type `ρ`; `read` reads its value and stores it. -/
structure Field (ρ : Type) where
  name : String
  required : Bool
  read : ρ → List Char → Reading ρ

def misses {ρ : Type} (fields : List (Field ρ)) (given : List String) : Bool :=
  fields.any fun f => f.required && !given.contains f.name

/-- Reads one member of a record: a known field may be given once, and an unknown one is passed
over. -/
def recordMember {ρ : Type} (size : Nat) (fields : List (Field ρ)) (key : String)
    (state : ρ × List String) (s : List Char) : Reading (ρ × List String) :=
  match fields.find? (·.name == key) with
  | none => (colon s >>= skipValue size).map (state, ·)
  | some f =>
    if state.2.contains key then .error .mismatch
    else (colon s >>= f.read state.1).map fun (x, s) => ((x, key :: state.2), s)

/-- The field values of an array whose bracket has been seen, in the order of the fields. -/
def positional {ρ : Type} (first : Bool) (state : ρ) : List (Field ρ) → List Char → Reading ρ
  | [], s =>
    match skipSpace s with
    | [] => .error .truncated
    | ']' :: s => .ok (state, s)
    | _ => .error .malformed
  | f :: fields, s =>
    match nextItem first s with
    | .error fault => .error fault
    | .ok (.closed s) => if misses (f :: fields) [] then .error .mismatch else .ok (state, s)
    | .ok (.entry s) =>
      match f.read state s with
      | .error fault => .error fault
      | .ok (state, s) => positional false state fields s

/-- A record; the fields that are not given keep their values in `start`. -/
def record {ρ : Type} (fields : List (Field ρ)) (start : ρ) (size : Nat) (s : List Char) :
    Reading ρ :=
  match skipSpace s with
  | '[' :: s => positional true start fields s
  | '{' :: s =>
    match members size (recordMember size fields) size true (start, []) s with
    | .error fault => .error fault
    | .ok ((x, given), s) => if misses fields given then .error .mismatch else .ok (x, s)
  | s => .error (wrongShape size s)

end GrammarFlow.Json
