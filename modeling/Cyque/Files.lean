import Cyque.Queue
import Mathlib.Data.List.Infix

namespace Cyque.Files

open Library.Scanning Queue

def pathBasename (path : Text) : Text :=
  let trailing := path.reverse.takeWhile (· = '/')
  match path.reverse.dropWhile (· = '/') with
  | [] => if path = [] then ['.'] else path
  | r => (trailing ++ r.takeWhile (· ≠ '/')).reverse

def makeCachedName (md5String : Text → Text) (f : File) : Text :=
  "file-".toList ++ md5String f.payload ++ '-' :: pathBasename f.payload

/-- Move the cursor of a list up to the first item that passes the test.
What is left behind the cursor is returned as well. -/
def nextMatch (p : File → Bool) : List File → Bool × List File
  | [] => (false, [])
  | f :: fs => if p f then (true, fs) else nextMatch p fs

def workQueueFileCreate (remoteName : Text) (type : FileType) (flags : ℤ) (payload : Text) : File where
  type := type
  flags := flags
  offset := 0
  pieceLength := 0
  payload := payload
  remoteName := remoteName

inductive Direction
  | input
  | output
deriving DecidableEq

/-- For an input the second scan goes on with the cursor of the inputs, which
the first scan has left at the end, and not with that of the outputs. -/
def conflicts (t : Task) (localName remoteName : Text) : Direction → Bool
  | .input =>
    let scan := nextMatch (fun f ↦ f.remoteName = remoteName ∧ f.payload ≠ localName) t.inputFiles
    scan.1 || (nextMatch (fun f ↦ f.remoteName = remoteName) scan.2).1
  | .output =>
    (nextMatch (fun f ↦ f.payload = localName ∧ f.remoteName ≠ remoteName) t.outputFiles).1 ||
      (nextMatch (fun f ↦ f.remoteName = remoteName) t.inputFiles).1

/-- The task after the call, or nothing when the call returns zero. -/
def workQueueTaskSpecifyFile (t : Task) (localName remoteName : Text) (type : Direction)
    (flags : ℤ) : Option Task :=
  if remoteName.head? = some '/' then none
  else if conflicts t localName remoteName type then none
  else
    let f := workQueueFileCreate remoteName .file flags localName
    match type with
    | .input => some { t with inputFiles := t.inputFiles ++ [f] }
    | .output => some { t with outputFiles := t.outputFiles ++ [f] }

/-- The segments of a name between its dollar signs as `strtok` returns them,
each with whether it starts past the beginning of the name. -/
def tokens (payload : Text) : List (Bool × Text) :=
  match payload.splitOnP (· = '$') with
  | [] => []
  | t :: ts => ((false, t) :: ts.map (fun u ↦ (true, u))).filter (fun p ↦ p.2 ≠ [])

def expandToken (os arch : Text) (token : Bool × Text) : Text :=
  if "ARCH".toList <:+: token.2 then
    if "ARCH".toList <+: token.2 then arch ++ token.2.drop 4 else '$' :: token.2
  else if "OS".toList <:+: token.2 then
    if "OS".toList <+: token.2 then
      (if "CYGWIN".toList <:+: os then "Cygwin".toList else os) ++ token.2.drop 2
    else '$' :: token.2
  else if token.1 then '$' :: token.2 else token.2

def expandEnvnames (os arch payload : Text) : Text :=
  if '$' ∈ payload then (tokens payload).flatMap (expandToken os arch) else payload

end Cyque.Files
