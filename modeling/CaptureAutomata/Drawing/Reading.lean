/-
Reading the text of a drawing:

* `Token`, `ScanPlace`, `scan`: the names, quoted texts and signs that a text is made of;
* `Action`, `ReadPlace`, `read`: what the statements of a directed graph do to its nodes;
* `Canvas`: the nodes and their attributes. `node` with attributes sets those that nodes have from then on,
  and a node is made, with what is set by then, where it is first mentioned, alone or at the end of an arrow;
* `readNodes`: the nodes that a text draws.

This is the part of the dot language that has nodes, arrows and their attributes, without subgraphs, ports,
numerals and comments. A text that needs more of the language is not read.
-/
import CaptureAutomata.Key

namespace CaptureAutomata.Drawing

/-! ### Tokens -/

/-- A part of a text. -/
inductive Token
  /-- A bracket, brace, equals sign, comma or semicolon. -/
  | sign (c : Char)
  /-- A dash and a closing angle bracket. -/
  | arrow
  /-- A name without quotes. -/
  | name (text : String)
  /-- A text between quotes. -/
  | quoted (text : String)
deriving DecidableEq, Repr

/-- A place in a text. -/
inductive ScanPlace
  /-- Outside of names and quotes. -/
  | outside
  /-- In a name, after these characters. -/
  | inName (text : List Char)
  /-- Between quotes, after these characters. -/
  | inQuotes (text : List Char)
  /-- Between quotes, after these characters and a backslash. -/
  | escaped (text : List Char)
  /-- After a dash. -/
  | dash
deriving DecidableEq, Repr

/-- The characters that are tokens by themselves. -/
def signs : List Char :=
  ['\x7b', '\x7d', '[', ']', '=', ',', ';']

/-- Whether a name may start with `c`: a letter or an underscore, or anything beyond ASCII. -/
def startsName (c : Char) : Bool :=
  c.isAlpha || c = '_' || decide (128 ≤ c.toNat)

/-- Whether a name may go on with `c`, which may also be a digit. -/
def continuesName (c : Char) : Bool :=
  startsName c || c.isDigit

namespace ScanPlace

/-- Goes over a character outside of names and quotes. -/
def start (c : Char) : Option (List Token × ScanPlace) :=
  if c.isWhitespace then some ([], outside)
  else if c ∈ signs then some ([.sign c], outside)
  else if c = '"' then some ([], inQuotes [])
  else if c = '-' then some ([], dash)
  else if startsName c then some ([], inName [c])
  else none

/-- Goes over a character, and returns the tokens that end with it or before it. -/
def step (p : ScanPlace) (c : Char) : Option (List Token × ScanPlace) :=
  match p with
  | outside => start c
  | inName text =>
    if continuesName c then some ([], inName (text ++ [c]))
    else (start c).map fun r => (.name (String.ofList text) :: r.1, r.2)
  | inQuotes text =>
    if c = '"' then some ([.quoted (String.ofList text)], outside)
    else if c = '\\' then some ([], escaped text)
    else some ([], inQuotes (text ++ [c]))
  | escaped text => if c = '\\' ∨ c = '"' then some ([], inQuotes (text ++ [c])) else none
  | dash => if c = '>' then some ([.arrow], outside) else none

end ScanPlace

/-- Goes over some characters, and returns the tokens that have ended by then. -/
def scan (p : ScanPlace) : List Char → Option (List Token × ScanPlace)
  | [] => some ([], p)
  | c :: cs => do
    let (ts, p') ← p.step c
    let (us, p'') ← scan p' cs
    return (ts ++ us, p'')

/-! ### Statements -/

/-- Attributes with their values. -/
abbrev Attributes : Type := KeyMap String String

/-- What a part of a statement does to the nodes. -/
inductive Action
  /-- Sets attributes of the nodes that are made from then on. -/
  | defaults (attributes : List (String × String))
  /-- Makes a node, if it is not there. -/
  | mention (name : String)
  /-- Sets attributes of a node. -/
  | attributes (name : String) (attributes : List (String × String))
deriving DecidableEq, Repr

/-- What a statement is about. -/
inductive Subject
  /-- The nodes that are made from then on. -/
  | nodes
  /-- A node. -/
  | node (name : String)
  /-- An arrow. -/
  | edge
deriving DecidableEq, Repr

/-- What the attributes of a statement do. -/
def Subject.actions (attributes : List (String × String)) : Subject → List Action
  | nodes => [.defaults attributes]
  | node name => [.attributes name attributes]
  | edge => []

/-- A place among the statements of a graph. -/
inductive ReadPlace
  /-- Before the keyword for a directed graph. -/
  | graph
  /-- Before the opening brace. -/
  | opening
  /-- Before a statement or the closing brace. -/
  | statement
  /-- After the keyword for nodes. -/
  | keyword
  /-- After the name of a node, or the last one of an arrow. -/
  | subject (s : Subject)
  /-- After an arrow without its end. -/
  | arrow
  /-- Between brackets, before an attribute or the closing bracket. -/
  | attributes (s : Subject) (attributes : List (String × String))
  /-- After the name of an attribute. -/
  | key (s : Subject) (attributes : List (String × String)) (key : String)
  /-- Between the name of an attribute and its value. -/
  | equals (s : Subject) (attributes : List (String × String)) (key : String)
  /-- After an attribute. -/
  | value (s : Subject) (attributes : List (String × String))
  /-- After the closing brace. -/
  | closed
deriving DecidableEq, Repr

/-- The names that have a meaning of their own. -/
def keywords : List String :=
  ["node", "edge", "graph", "digraph", "subgraph", "strict"]

/-- The text of a name, with or without quotes. -/
def Token.text? : Token → Option String
  | name text => if text ∈ keywords then none else some text
  | quoted text => some text
  | _ => none

namespace ReadPlace

/-- Reads the first token of a statement, or the closing brace. -/
def start (t : Token) : Option (List Action × ReadPlace) :=
  if t = .sign '\x7d' then some ([], closed)
  else if t = .name "node" then some ([], keyword)
  else t.text?.map fun name => ([.mention name], subject (.node name))

/-- Reads the name of an attribute, or the closing bracket. -/
def inBrackets (s : Subject) (as : List (String × String)) (t : Token) :
    Option (List Action × ReadPlace) :=
  if t = .sign ']' then some (s.actions as, statement) else t.text?.map fun k => ([], key s as k)

/-- Reads a token, and returns what is done by it. -/
def step (p : ReadPlace) (t : Token) : Option (List Action × ReadPlace) :=
  match p with
  | graph => if t = .name "digraph" then some ([], opening) else none
  | opening => if t = .sign '\x7b' then some ([], statement) else none
  | statement => start t
  | keyword => if t = .sign '[' then some ([], attributes .nodes []) else none
  | subject s =>
    if t = .sign '[' then some ([], attributes s [])
    else if t = .arrow then some ([], arrow)
    else if t = .sign ';' then some ([], statement)
    else start t
  | arrow => t.text?.map fun name => ([.mention name], subject .edge)
  | attributes s as => inBrackets s as t
  | key s as k => if t = .sign '=' then some ([], equals s as k) else none
  | equals s as k => t.text?.map fun v => ([], value s (as ++ [(k, v)]))
  | value s as => if t = .sign ',' ∨ t = .sign ';' then some ([], attributes s as) else inBrackets s as t
  | closed => none

end ReadPlace

/-- Reads some tokens, and returns what is done by them. -/
def read (p : ReadPlace) : List Token → Option (List Action × ReadPlace)
  | [] => some ([], p)
  | t :: ts => do
    let (as, p') ← p.step t
    let (bs, p'') ← read p' ts
    return (as ++ bs, p'')

/-! ### Nodes -/

/-- What has been drawn. -/
structure Canvas where
  /-- The attributes of the nodes that are made from now on. -/
  defaults : Attributes := ∅
  /-- The nodes with their attributes. -/
  nodes : KeyMap String Attributes := ∅

/-- Does what a part of a statement says. -/
def Canvas.act (c : Canvas) : Action → Canvas
  | .defaults as => { c with defaults := c.defaults.insertMany as }
  | .mention name => { c with nodes := c.nodes.insertIfNew name c.defaults }
  | .attributes name as => { c with nodes := c.nodes.insert name ((c.nodes.getD name ∅).insertMany as) }

/-- The nodes that a text draws, with their attributes. -/
def readNodes (text : String) : Option (KeyMap String Attributes) := do
  let (tokens, p) ← scan .outside text.toList
  let (actions, q) ← read .graph tokens
  if p = .outside ∧ q = .closed then some (actions.foldl Canvas.act {}).nodes else none

end CaptureAutomata.Drawing
