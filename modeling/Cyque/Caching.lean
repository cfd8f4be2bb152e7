import Cyque.Results

namespace Cyque.Caching

open Library.Execution Library.Lookup Library.Scanning Queue Link Files Workers Messages Transfer
open Dispatch Wait Api Run Footprint Exchange Placement History Steps Conduct Collect Polling Turns Calls
open Agreement Results Relation

variable {s s' u : State} {p : Ref → Option Place} {k : Key} {σ : Scope} {d : Prop}
variable {name : Text} {trace es : List Event} {env : Environment} {ok : State → Call → Prop}

/-- The worker has the file, or the history says why the master errs. -/
def Justified (k : Key) (name : Text) (trace : List Event) : Prop :=
  Backed k name trace ∨ ∃ e ∈ trace, Misread e

def Covered (s : State) : Prop :=
  ∀ k w name, s.workerTable.lookup k = some w → w.currentFiles.lookup name ≠ none →
    Justified k name s.trace

theorem Justified.append (h : Justified k name trace) (he : ∀ e ∈ es, Kept k name e) :
    Justified k name (trace ++ es) := by
  rcases h with ⟨before, got, after, rfl, hk, hg⟩ | ⟨e, hm, hx⟩
  · refine .inl ⟨before, got, after ++ es, by simp, fun e hm ↦ ?_, hg⟩
    rw [← List.append_assoc] at hm
    rcases List.mem_append.mp hm with hm | hm
    · exact hk e hm
    · exact he e hm
  · exact .inr ⟨e, List.mem_append_left _ hm, hx⟩

def Harmless (e : Event) : Prop := ∀ k name, Kept k name e

def withInput : Task :=
  { workQueueTaskCreate [] with inputFiles := [⟨.file, 1, 0, 0, "i".toList, "i".toList⟩] }

/-- A worker for that task. The input has three bytes, and may be readable. -/
def supplying (readable : Bool) : Environment :=
  let incoming := lines ["workqueue 3 host linux x86 4", "resource workers 0 0 1 0 0",
    "available_results", "result 0 0 0 1", "end"]
  { alone incoming with
    md5String := fun _ ↦ "865c0c0b4ab0e063e5caa3387c1a8741".toList
    answers := fun i ↦ { (alone incoming).answers i with
      stat := some ⟨0, 3, 0o644, false⟩
      opened := readable
      moved := 3 } }

theorem reachable_withInput : Reachable (fun _ _ ↦ True) env (oneFile env withInput) :=
  reachable_oneFile "i".toList true .input rfl

end Cyque.Caching
