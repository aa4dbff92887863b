import ExtrusionProfile.Inspect.Folder

/-! The inspect command on the files of the machine. -/
open ExtrusionProfile Inspect

/-- What a path of the file system leads to. What is there but holds no text is taken for a
directory. -/
def lookUp (path : List Char) : IO Entry := do
  match ← (IO.FS.readFile (String.ofList path)).toBaseIO with
  | .ok text => pure (.file text.toList)
  | .error (.noFileOrDirectory ..) => pure .missing
  | .error _ => pure .directory

def printLines (ls : Lines) : IO Unit := do
  for l in ls.out do IO.println l
  for l in ls.err do IO.eprintln l

def main (args : List String) : IO UInt32 := do
  let a := Arguments.ofList (args.map String.toList)
  let e ← match a.path with
    | some p => lookUp p
    | none => pure .missing
  let o := examine .own a fun _ => e
  printLines o.lines
  match o.ending with
  | .exit c => pure (UInt32.ofNat c)
  | .fileFault .noEntry => throw (IO.userError "ENOENT: no such file or directory")
  | .fileFault .isDirectory => throw (IO.userError "EISDIR: illegal operation on a directory")
  | .clipFault f => throw (IO.userError f.message)
  | .preview p t =>
    IO.FS.writeFile (String.ofList p) (String.ofList t)
    IO.println (wroteLine p)
    pure 0
