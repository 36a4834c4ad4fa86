/-!
# Interchange values

The data of a JSON text, its compact form without blanks, and its indented form. In a text, the
quote, the backslash and the control characters are escaped, and all else stands for itself.
-/

namespace TripleChain.Interchange

inductive Value where
  | null
  | bool (value : Bool)
  | natural (value : Nat)
  /-- A number that is not a natural one. Nothing here is read from it. -/
  | number
  | text (value : String)
  | list (values : List Value)
  | object (fields : List (String × Value))
deriving Inhabited

/-- How one character is written between quotes. -/
def escape (c : Char) : String :=
  match c with
  | '"' => "\\\""
  | '\\' => "\\\\"
  | '\x08' => "\\b"
  | '\t' => "\\t"
  | '\n' => "\\n"
  | '\x0c' => "\\f"
  | '\r' => "\\r"
  | c =>
    if c.toNat < 0x20 then
      "\\u00" ++ String.ofList [Nat.digitChar (c.toNat / 16), Nat.digitChar (c.toNat % 16)]
    else c.toString

def quote (s : String) : String :=
  "\"" ++ s.foldl (fun text c => text ++ escape c) "" ++ "\""

/-- The text of a value that has no parts. -/
def Value.leafText : Value → String
  | null => "null"
  | bool true => "true"
  | bool false => "false"
  | natural n => toString n
  | number => "0"
  | text s => quote s
  | list _ => "[]"
  | object _ => "\x7b\x7d"

mutual

def Value.compact : Value → String
  | .list (v :: vs) => "[" ++ v.compact ++ Value.compactRest vs ++ "]"
  | .object ((k, v) :: fs) =>
    "\x7b" ++ quote k ++ ":" ++ v.compact ++ Value.compactFields fs ++ "\x7d"
  | v => v.leafText

def Value.compactRest : List Value → String
  | [] => ""
  | v :: vs => "," ++ v.compact ++ Value.compactRest vs

def Value.compactFields : List (String × Value) → String
  | [] => ""
  | (k, v) :: fs => "," ++ quote k ++ ":" ++ v.compact ++ Value.compactFields fs

end

/-- A new line, indented by two spaces for every level. -/
def newLine (level : Nat) : String := "\n" ++ String.ofList (List.replicate (2 * level) ' ')

mutual

/-- Every part on a line of its own. -/
def Value.indented : (level : Nat) → Value → String
  | level, .list (v :: vs) =>
    "[" ++ newLine (level + 1) ++ v.indented (level + 1) ++ Value.indentedRest (level + 1) vs ++
      newLine level ++ "]"
  | level, .object ((k, v) :: fs) =>
    "\x7b" ++ newLine (level + 1) ++ quote k ++ ": " ++ v.indented (level + 1) ++
      Value.indentedFields (level + 1) fs ++ newLine level ++ "\x7d"
  | _, v => v.leafText

def Value.indentedRest : (level : Nat) → List Value → String
  | _, [] => ""
  | level, v :: vs => "," ++ newLine level ++ v.indented level ++ Value.indentedRest level vs

def Value.indentedFields : (level : Nat) → List (String × Value) → String
  | _, [] => ""
  | level, (k, v) :: fs =>
    "," ++ newLine level ++ quote k ++ ": " ++ v.indented level ++ Value.indentedFields level fs

end

mutual

/-- How many lists and objects lie inside one another. -/
def Value.depth : Value → Nat
  | .list vs => Value.depthList vs + 1
  | .object fs => Value.depthFields fs + 1
  | _ => 0

def Value.depthList : List Value → Nat
  | [] => 0
  | v :: vs => max v.depth (Value.depthList vs)

def Value.depthFields : List (String × Value) → Nat
  | [] => 0
  | (_, v) :: fs => max v.depth (Value.depthFields fs)

end

namespace Value

def text? : Value → Option String
  | text s => some s
  | _ => none

def list? : Value → Option (List Value)
  | list vs => some vs
  | _ => none

/-- The fields of a record in their order: an object that has them all, whatever else it has, or
a list of exactly their values. -/
def fields? (names : List String) : Value → Option (List Value)
  | object fs => names.mapM fun name => fs.lookup name
  | list vs => if vs.length = names.length then some vs else none
  | _ => none

/-- The name and the content of an object with one field. -/
def tagged? : Value → Option (String × Value)
  | object [field] => some field
  | _ => none

end Value

end TripleChain.Interchange
