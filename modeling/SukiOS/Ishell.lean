import SukiOS.EchoLine

/-! The shell `ishell`, from the first key to the system calls: the line in the static buffer, the
commands, and the arguments of a program, which are cut out of the line in place. -/
namespace SukiOS.Shell
open ByteMemory

/-! ### System calls -/

/-- `int $0x80`. A pointer comes with the memory that it points into, and `argv` is an array of
pointers with `none` for `NULL`. -/
inductive Syscall where
  | write (c : Byte)
  | execve (path : Mem × ℕ) (argv : Option (Mem × (ℕ → Option ℕ)))
  | exit

/-- What the shell does not determine: the value that each call of `execve` returns, and what stands
on the stack where `full_path` and `args` are. -/
structure Surroundings where
  ret : ℕ → ℤ
  fullPath : ℕ → Mem
  args : ℕ → ℕ → Option ℕ

def print (s : String) : List Syscall := (chars s).map .write

/-- `print` of a string in memory. -/
def printFrom (mem : Mem) : ℕ → ℕ → Option (List Syscall)
  | 0, _ => none
  | n+1, s =>
    if mem s ≠ 0#8 then (printFrom mem n (s + 1)).map (.write (mem s) :: ·) else some []

/-! ### Programs -/

def slashChar : Byte := 0x2F#8

/-- The variables of the loop that looks for arguments. -/
structure Splitting where
  mem : Mem
  p : ℕ
  args : ℕ → Option ℕ
  argCount : ℕ

def splitArguments : ℕ → Splitting → Option Splitting
  | 0, _ => none
  | n+1, s =>
    if s.mem s.p ≠ 0#8 ∧ s.argCount < 7 then
      if s.mem s.p = space then do
        let mem := Function.update s.mem s.p 0#8
        let p ← skipSpaces mem bufSize (s.p + 1)
        if mem p ≠ 0#8 then
          splitArguments n
            { mem, p, args := Function.update s.args s.argCount (some p),
              argCount := s.argCount + 1 }
        else splitArguments n { s with mem, p }
      else splitArguments n { s with p := s.p + 1 }
    else some s

/-- The loop that copies the name of the program behind the slash, for at most `n` characters more;
the value of `i` after it is returned as well. -/
def copyProgram (mem : Mem) (program : ℕ) : ℕ → ℕ → Mem → Mem × ℕ
  | 0, i, fullPath => (fullPath, i)
  | n+1, i, fullPath =>
    if mem (program + i) ≠ 0#8 then
      copyProgram mem program n (i + 1) (Function.update fullPath (i + 1) (mem (program + i)))
    else (fullPath, i)

def execError (ret : ℤ) : List Syscall :=
  print "exec failed: " ++
    (if ret = -2 then print "No such file\n"
    else if ret = -12 then print "Out of memory\n"
    else if ret = -1 then print "Invalid ELF format\n"
    else print "Unknown error\n")

/-- An attempt: the text before the call, and the call. -/
def execAttempt (path : Mem × ℕ) (argv : Mem × (ℕ → Option ℕ)) : Option (List Syscall) := do
  let shown ← printFrom path.1 bufSize path.2
  some (print "exec: trying \"" ++ shown ++ print "\"\n" ++ [.execve path (some argv)])

/-- The branch of `exec`, with the first space of the line: the number of calls of `execve` after
it, the buffer, and the system calls. -/
def execCommand (w : Surroundings) (execs : ℕ) (mem : Mem) :
    Option ℕ → Option (ℕ × Mem × List Syscall)
  | none => some (execs, mem, print "exec: no program specified\n")
  | some sp => do
    let program ← skipSpaces mem bufSize (sp + 1)
    if mem program ≠ 0#8 then
      let s ← splitArguments bufSize ⟨mem, program, Function.update (w.args execs) 0 (some program),
        1⟩
      let args := Function.update s.args s.argCount none
      let first ← execAttempt (s.mem, program) (s.mem, args)
      if w.ret execs = 0 then some (execs + 1, s.mem, first)
      else if s.mem program ≠ slashChar then
        let r := copyProgram s.mem program 254 0 (Function.update (w.fullPath execs) 0 slashChar)
        let second ← execAttempt (Function.update r.1 (r.2 + 1) 0#8, 0) (s.mem, args)
        let error := if w.ret (execs + 1) = 0 then [] else execError (w.ret (execs + 1))
        some (execs + 2, s.mem, first ++ second ++ error)
      else some (execs + 1, s.mem, first ++ execError (w.ret execs))
    else some (execs, mem, print "exec: no program specified\n")

/-! ### Commands -/

/-- The shell between two keys. After the call of `exit` it does not run any more. -/
structure ShellState where
  buf : Mem
  idx : ℕ
  execs : ℕ
  exited : Bool

/-- The buffer after `echo`, where the second space may have been overwritten. -/
def echoBuffer (mem : Mem) : Option ℕ → Option Mem
  | none => some mem
  | some sp => do
    let nextSpace ← strchr mem space bufSize (sp + 1)
    some (echoOption mem sp nextSpace).2.2

def helpText : List Syscall :=
  print "Available commands:\n" ++
  print "  help     - Show the help\n" ++
  print "  exit     - Exit shell\n" ++
  print "  ls       - List the file in the root dir\n" ++
  print "  cat      - Show README.TXT\n" ++
  print "  echo     - Echo text\n" ++
  print "  exec     - Run application\n" ++
  print "  [cmd]    - Run application\n"

def catText : List Syscall :=
  print "--- README.TXT ---\n" ++
  print "SukiOS is a from-scratch x86_64 monolithic kernel.\n" ++
  print "--- end ---\n"

/-- `if (space) *space = '\0'` -/
def cutSpace (buf : Mem) : Option ℕ → Mem
  | some sp => Function.update buf sp 0#8
  | none => buf

/-- A line that is not empty. -/
def runCommand (w : Surroundings) (s : ShellState) : Option (ShellState × List Syscall) := do
  let buf := Function.update s.buf s.idx 0#8
  let sp ← strchr buf space bufSize 0
  let buf := cutSpace buf sp
  if strcmp buf 0 (chars "help") = 0 then some ({ s with buf }, helpText)
  else if strcmp buf 0 (chars "exit") = 0 then
    some ({ s with buf, exited := true }, print "Bye!\n" ++ [.exit])
  else if strcmp buf 0 (chars "ls") = 0 then some ({ s with buf }, print "/ISHELL\n/README.TXT\n")
  else if strcmp buf 0 (chars "cat") = 0 then some ({ s with buf }, catText)
  else if strcmp buf 0 (chars "echo") = 0 then
    let out ← echoCommand buf sp
    let buf ← echoBuffer buf sp
    some ({ s with buf }, out.map .write)
  else if strcmp buf 0 (chars "exec") = 0 then
    let r ← execCommand w s.execs buf sp
    some ({ s with execs := r.1, buf := r.2.1 }, r.2.2)
  else
    let failed := if w.ret s.execs = 0 then []
      else print "Command not found: " ++ (List.range s.idx).map (fun i => .write (buf i)) ++
        [.write newlineChar]
    some ({ s with buf, execs := s.execs + 1 }, .execve (buf, 0) none :: failed)

/-! ### Keys -/

def backspaceChar : Byte := 0x08#8

def prompt : List Syscall := [.write 0x3E#8, .write space]

/-- A character that `getchar` returned. -/
def typeByte (w : Surroundings) (s : ShellState) (c : Byte) : Option (ShellState × List Syscall) :=
  if s.exited then some (s, [])
  else if c = newlineChar ∨ c = 0x0D#8 then
    if s.idx = 0 then some (s, .write newlineChar :: prompt)
    else do
      let r ← runCommand w s
      some ({ r.1 with idx := 0 }, .write newlineChar :: r.2 ++ if r.1.exited then [] else prompt)
  else if c = backspaceChar then
    if 0 < s.idx then some ({ s with idx := s.idx - 1 }, [.write backspaceChar]) else some (s, [])
  else if s.idx < 255 then
    some ({ s with buf := Function.update s.buf s.idx c, idx := s.idx + 1 }, [.write c])
  else some (s, [])

def typeBytes (w : Surroundings) : ShellState → List Byte → Option (ShellState × List Syscall)
  | s, [] => some (s, [])
  | s, c::input => do
    let r ← typeByte w s c
    let q ← typeBytes w r.1 input
    some (q.1, r.2 ++ q.2)

/-- `_start` after the text that it prints first, for the characters that are typed. -/
def start (w : Surroundings) (buf : Mem) (input : List Byte) : Option (ShellState × List Syscall) :=
  do
  let r ← typeBytes w ⟨buf, 0, 0, false⟩ input
  some (r.1, prompt ++ r.2)

end SukiOS.Shell
