import Mathlib.Data.List.Basic
import SukiOS.Lib.CString

/-! The command `echo` of the shell `ishell`: the line in the buffer is cut at its spaces in place,
and a loop over pointers prints the arguments. The pointers are offsets into `buf`. -/
namespace SukiOS.Shell
open ByteMemory

def space : Byte := 0x20#8

def quote : Byte := 0x22#8

def newlineChar : Byte := 0x0A#8

/-- The characters of a literal. -/
def chars (s : String) : List Byte := s.toList.map (fun c => BitVec.ofNat 8 c.toNat)

/-! ### The source -/

/-- `strchr`: `none` inside for `NULL`. -/
def strchr (mem : Mem) (c : Byte) : ℕ → ℕ → Option (Option ℕ)
  | 0, _ => none
  | n+1, s =>
    if mem s = 0#8 then some none
    else if mem s = c then some (some s)
    else strchr mem c n (s + 1)

/-- `strcmp` with a literal, which ends in 0. -/
def strcmp (mem : Mem) : ℕ → List Byte → ℤ
  | s1, [] => (mem s1).toInt
  | s1, c::s2 =>
    if mem s1 ≠ 0#8 ∧ c ≠ 0#8 ∧ mem s1 = c then strcmp mem (s1 + 1) s2
    else (mem s1).toInt - c.toInt

/-- The loop `while (*p == ' ') p++`. -/
def skipSpaces (mem : Mem) : ℕ → ℕ → Option ℕ
  | 0, _ => none
  | n+1, p => if mem p = space then skipSpaces mem n (p + 1) else some p

/-- The loop over quoted text: what it prints, and where it ends. -/
def putQuoted (mem : Mem) : ℕ → ℕ → Option (List Byte × ℕ)
  | 0, _ => none
  | n+1, p =>
    if mem p ≠ 0#8 ∧ mem p ≠ quote then do
      let r ← putQuoted mem n (p + 1)
      some (mem p :: r.1, r.2)
    else some ([], p)

/-- The loops run inside the buffer of 256 bytes. -/
def bufSize : ℕ := 256

/-- The loop that prints the arguments. -/
def putArguments (mem : Mem) (argStart : ℕ) : ℕ → ℕ → Option (List Byte)
  | 0, _ => none
  | n+1, p =>
    if mem p = 0#8 then some []
    else if mem p = quote then do
      let r ← putQuoted mem bufSize (p + 1)
      let p := if mem r.2 = quote then r.2 + 1 else r.2
      let p := if mem p = space then p + 1 else p
      let rest ← putArguments mem argStart n p
      some (r.1 ++ rest)
    else if mem p = space ∧ argStart < p ∧ mem (p - 1) ≠ space then do
      let p ← skipSpaces mem bufSize p
      let rest ← putArguments mem argStart n p
      some (space :: rest)
    else if mem p ≠ space then do
      let rest ← putArguments mem argStart n (p + 1)
      some (mem p :: rest)
    else putArguments mem argStart n (p + 1)

/-- The option: whether a newline is due, where the arguments start, and the buffer; the second
space of the line has been found, if there is one. -/
def echoOption (mem : Mem) (sp : ℕ) : Option ℕ → Bool × ℕ × Mem
  | some nextSpace =>
    let cut := Function.update mem nextSpace 0#8
    if strcmp cut (sp + 1) (chars "-n") = 0 then
      (false, nextSpace + 1, Function.update cut nextSpace space)
    -- the space is not put back here
    else (true, sp + 1, cut)
  | none => (true, sp + 1, mem)

/-- The rest of the branch; the newline is printed without arguments only. -/
def echoArguments (mem : Mem) (newline : Bool) (argStart : ℕ) : Option (List Byte) := do
  let argStart ← skipSpaces mem bufSize argStart
  if mem argStart ≠ 0#8 then putArguments mem argStart bufSize argStart
  else some (if newline then [newlineChar] else [])

/-- The branch of `echo`, with the first space of the line, which has been overwritten: what it
prints. -/
def echoCommand (mem : Mem) : Option ℕ → Option (List Byte)
  | none => some [newlineChar]
  | some sp => do
    let nextSpace ← strchr mem space bufSize (sp + 1)
    let r := echoOption mem sp nextSpace
    echoArguments r.2.2 r.1 r.2.1

/-- The commands that are compared with the line before `echo`. -/
def commandsBeforeEcho : List (List Byte) := [chars "help", chars "exit", chars "ls", chars "cat"]

/-- A line in the buffer: what the command `echo` prints, or `none` inside for another command. -/
def runLine (mem : Mem) : Option (Option (List Byte)) := do
  let sp ← strchr mem space bufSize 0
  let mem := match sp with
    | some sp => Function.update mem sp 0#8
    | none => mem
  if (∃ c ∈ commandsBeforeEcho, strcmp mem 0 c = 0) ∨ strcmp mem 0 (chars "echo") ≠ 0 then some none
  else do
    let out ← echoCommand mem sp
    some (some out)

/-! ### The documentation -/

/-- Where a character stands. -/
inductive Place where
  | outside
  | word
  | quoted
deriving DecidableEq, Repr

/-- A character is put in front of the first word. -/
def consHead (c : Byte) : List (List Byte) → List (List Byte)
  | [] => [[c]]
  | w::ws => (c::w)::ws

/-- The words of a line from a place on; inside a word or a quoted text the first one is the rest of
that word. Words end at spaces, and the text inside double quotes is kept; a quotation that is not
closed goes to the end of the line. -/
def wordsFrom : Place → List Byte → List (List Byte)
  | .outside, [] => []
  | .word, [] => [[]]
  | .quoted, [] => [[]]
  | .outside, c::s =>
    if c = space then wordsFrom .outside s
    else if c = quote then wordsFrom .quoted s
    else consHead c (wordsFrom .word s)
  | .word, c::s =>
    if c = space then [] :: wordsFrom .outside s
    else if c = quote then wordsFrom .quoted s
    else consHead c (wordsFrom .word s)
  | .quoted, c::s =>
    if c = quote then wordsFrom .word s else consHead c (wordsFrom .quoted s)

def words (s : List Byte) : List (List Byte) := wordsFrom .outside s

/-- The words separated by single spaces. -/
def unwords : List (List Byte) → List Byte
  | [] => []
  | [w] => w
  | w::ws => w ++ space :: unwords ws

/-- What `echo` is documented to print for its arguments. -/
def documented (args : List Byte) : List Byte :=
  match words args with
  | [] => [newlineChar]
  | w::ws => if w = chars "-n" then unwords ws else unwords (w::ws) ++ [newlineChar]

/-! ### Where they agree -/

/-- Nothing but spaces. -/
def Blank (s : List Byte) : Prop := ∀ c, c ∈ s → c = space

instance (s : List Byte) : Decidable (Blank s) :=
  inferInstanceAs (Decidable (∀ c, c ∈ s → c = space))

/-- What stands before a character: a space or nothing, the character of a word, a closing quote, or
an opening quote and quoted text. -/
inductive Before where
  | gap
  | char
  | closing
  | opening
deriving DecidableEq, Repr

/-- Outside quotes, spaces behind a closing quote go to the end of the line, and spaces behind
another character do not. -/
def SpacesKept : Before → List Byte → Prop
  | _, [] => True
  | .gap, c::s =>
    if c = space then SpacesKept .gap s
    else if c = quote then SpacesKept .opening s
    else SpacesKept .char s
  | .char, c::s =>
    if c = space then ¬ Blank s ∧ SpacesKept .gap s
    else if c = quote then SpacesKept .opening s
    else SpacesKept .char s
  | .closing, c::s =>
    if c = space then Blank s
    else if c = quote then SpacesKept .opening s
    else SpacesKept .char s
  | .opening, c::s => if c = quote then SpacesKept .closing s else SpacesKept .opening s

/-- The argument up to the first space. -/
def firstArgument (args : List Byte) : List Byte := args.takeWhile (· ≠ space)

/-- The argument is empty or starts with a space, and has no words or an empty one; or it is `-n`, a
space, and a text whose spaces are kept; or its words are `-n` and `-n`, the first one written with
a quote. -/
def EchoAgrees (args : List Byte) : Prop :=
  (firstArgument args = [] ∧ (words args = [] ∨ words args = [[]])) ∨
  (∃ s, args = chars "-n" ++ space :: s ∧ SpacesKept .gap s) ∨
  (quote ∈ firstArgument args ∧ words args = [chars "-n", chars "-n"])

end SukiOS.Shell
