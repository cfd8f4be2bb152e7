import Cyque.Queue

namespace Cyque.Link

open Library.Execution Library.Scanning Queue

abbrev workQueueLineMax : ℕ := 4096

/-- `"0x%p"`, where the address itself is printed with a prefix. -/
def linkToHashKey (k : Key) : Text := "0x0x".toList ++ Nat.toDigits 16 k

/-- The text of a message, as `send_worker_msg` formats it. -/
def text : Msg → Text
  | .name => "\n".toList
  | .check => "check\n".toList
  | .exit => "exit\n".toList
  | .release => "release\n".toList
  | .kill i => "kill ".toList ++ showInt i ++ ['\n']
  | .sendResults n => "send_results ".toList ++ showInt n ++ ['\n']
  | .unlink n => "unlink ".toList ++ n ++ ['\n']
  | .get n => "get ".toList ++ n ++ " 1\n".toList
  | .put n l m f =>
    "put ".toList ++ n ++ ' ' :: showInt l ++ " 0".toList ++ showOctal m ++ ' ' :: showInt f ++ ['\n']
  | .task i => "task ".toList ++ showInt i ++ ['\n']
  | .cmd c => "cmd ".toList ++ showInt c.length ++ '\n' :: c
  | .cores n => "cores ".toList ++ showInt n ++ ['\n']
  | .memory n => "memory ".toList ++ showInt n ++ ['\n']
  | .disk n => "disk ".toList ++ showInt n ++ ['\n']
  | .gpus n => "gpus ".toList ++ showInt n ++ ['\n']
  | .dir n => "dir ".toList ++ n ++ ['\n']
  | .infile c n f => "infile ".toList ++ c ++ ' ' :: n ++ ' ' :: showInt f ++ ['\n']
  | .outfile c n f => "outfile ".toList ++ c ++ ' ' :: n ++ ' ' :: showInt f ++ ['\n']
  | .end => "end\n".toList

/-- `vsnprintf` counts in an `int`: a longer message is not sent at all. -/
def fits (m : Msg) : Bool := decide ((text m).length < 2 ^ 31)

/-- The history keeps every attempt to send, whatever became of it. -/
def sendWorkerMsg (k : Key) (m : Msg) : M ℤ := do
  let _ ← worker k
  let a ← ask
  log (.sent k m)
  pure (if fits m then a.wrote else -1)

/-- Read up to the end of the line from the bytes at hand, into a buffer of
the given length. Carriage returns are dropped. -/
def readline : ℕ → Text → Option Text × Text
  | 0, s => (none, s)
  | _ + 1, [] => (none, [])
  | n + 1, c :: s =>
    if c = '\n' then (some [], s)
    else if c = '\r' then readline (n + 1) s
    else
      let p := readline n s
      (p.1.map (c :: ·), p.2)

def cString (s : Text) : Text := s.takeWhile (· ≠ '\x00')

def linkReadline (k : Key) (length : ℕ) : M (Option Text) := do
  let w ← worker k
  let a ← ask
  let p := readline length (w.incoming.take a.arrived)
  setWorker k (fun w ↦ { w with incoming := p.2 ++ w.incoming.drop a.arrived })
  pure (p.1.map cString)

def linkRead (k : Key) (count : ℕ) : M (ℤ × Text) := do
  let w ← worker k
  let a ← ask
  let bytes := w.incoming.take (min count a.arrived)
  setWorker k (fun w ↦ { w with incoming := w.incoming.drop bytes.length })
  if bytes = [] then
    pure (if count = 0 ∨ a.closed then 0 else -1, [])
  else
    pure (bytes.length, bytes)

def linkSoak (k : Key) (length : ℤ) : M Unit := do
  let _ ← worker k
  let a ← ask
  setWorker k (fun w ↦ { w with incoming := w.incoming.drop (min length.toNat a.arrived) })

/-- The number of bytes stored, or `-1` when the local file could not take
them. -/
def linkStreamToFd (k : Key) (length : ℤ) : M ℤ := do
  let w ← worker k
  let a ← ask
  let bytes := w.incoming.take (min length.toNat a.arrived)
  setWorker k (fun w ↦ { w with incoming := w.incoming.drop bytes.length })
  pure (if bytes ≠ [] ∧ a.moved < 0 then -1 else bytes.length)

/-- The number of bytes of the local file that went out, or `-1` when the link
could not take them. -/
def linkStreamFromFd (k : Key) (length : ℤ) : M ℤ := do
  let _ ← worker k
  let a ← ask
  pure (if length ≤ 0 then 0 else max (-1) (min a.moved length))

end Cyque.Link
