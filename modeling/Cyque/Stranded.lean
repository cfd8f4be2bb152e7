import Cyque.Agreement

namespace Cyque.Stranded

open Library.Execution Library.Lookup Library.Scanning Queue Link Workers Dispatch Wait Api Run
open Footprint Placement History Steps Conduct Collect Polling Turns Calls Agreement Relation

variable {s s' : State} {env : Environment} {σ : Scope} {d : Prop}

theorem heeded_of_append {trace es : List Event} (h : Heeded (trace ++ es)) : Heeded trace :=
  fun known waiting hm ↦ h known waiting (List.mem_append_left es hm)

theorem turns_drained (h : ReflTransGen (Turn σ d) s s') (hr : ¬ σ.receiving)
    (hs : Drained s) : Drained s' := by
  induction h with
  | refl => exact hs
  | tail _ ht ih =>
    intro hh
    obtain ⟨es, he⟩ := turn_trace ht
    rw [he] at hh
    exact turn_finished ht hr (ih (heeded_of_append hh))

theorem waits_drained {a : Option Ref} (h : Waits s a s') (hs : Drained s) : Drained s' := by
  cases h with
  | task r hr => exact fun hh ↦ hs (heeded_of_append hh)
  | none => exact fun hh ↦ hs (heeded_of_append hh)

/-- Between the calls no result waits to be fetched, if no poll has ever left
one behind. -/
theorem reachable_drained {ok : State → Call → Prop} (h : Reachable ok env s) : Drained s := by
  induction h with
  | start => exact fun _ ↦ rfl
  | @call s s' c n h ha hok hp ih =>
    by_cases hc : c = .wait
    · subst hc
      have hspec : Spec (fun s ↦ Sound s) (perform .wait) (fun s _ s' ↦ Drained s → Drained s') := by
        refine Spec.bind spec_wait (fun s₀ _ _ ↦ Spec.pure _ ?_)
        rintro s' ⟨t, -, -, hd, hw⟩ hs₀
        exact waits_drained hw (hd hs₀)
      exact hspec.elim (reachable_sound h) hp ih
    · have hk := keeps_perform (σ := .still) (d := True) c (fun he ↦ absurd he hc)
      exact turns_drained (hk.elim ⟨reachable_sound h, ha, fun _ _ _ _ ↦ trivial⟩ hp).2 id ih

/-- `Wait` gives up on an empty queue only, unless a poll found no worker that
is known while a result was waiting. -/
theorem wait_gives_up (h : Reachable (fun _ _ ↦ True) env s) {n : ℕ}
    (hw : wait n s = .done none s') (hh : Heeded s'.trace) :
    s'.readyList = [] ∧ s'.runningTasks.size = 0 ∧ s'.finishedTasks.size = 0 ∧
      s'.completeList = [] ∧ ∀ id, s'.tasks id = none := by
  obtain ⟨t, -, ht, hd, hend⟩ := spec_wait.elim (reachable_sound h) hw
  cases hend with
  | none hc hr hl =>
    have hf := hd (reachable_drained h) (heeded_of_append hh)
    refine ⟨hl, hr, hf, hc, ?_⟩
    obtain ⟨p, hp⟩ := ht.1
    refine (tasks_eq_none_iff hp).mpr ((sizes_eq_zero_iff hp.consistent).mp ?_)
    rw [hl, hr, hf, hc]
    rfl

def heeds : Event → Bool
  | .polled known waiting => waiting = 0 ∨ 0 < known
  | _ => true

theorem heeded_iff {trace : List Event} : Heeded trace ↔ trace.all heeds = true := by
  rw [List.all_eq_true]
  constructor
  · intro h e he
    cases e with
    | polled known waiting => exact decide_eq_true (h known waiting he)
    | _ => rfl
  · exact fun h known waiting hm ↦ of_decide_eq_true (h _ hm)

instance : DecidablePred Heeded := fun _ ↦ decidable_of_iff _ heeded_iff.symm

theorem wait_gives_up_finishing :
    ∃ s s', Reachable (fun _ _ ↦ True) finishing s ∧ .result 1 0 "result 7 0 0 1".toList ∈ s.trace ∧
      .returned 0 1 ∈ s.trace ∧ wait 20 s = .done none s' ∧ s'.finishedTasks.size = 0 ∧
      ∀ id, s'.tasks id = none := by
  obtain ⟨_, s, hp, ht⟩ := exists_of_returns (f := perform .wait) (n := 20)
    (s := oneTask finishing "true".toList) (t := fun _ s ↦
      decide (Event.result 1 0 "result 7 0 0 1".toList ∈ s.trace ∧ Event.returned 0 1 ∈ s.trace) &&
        returns wait (fun x s' ↦ decide (x = none ∧ Heeded s'.trace)) 20 s) (by decide +kernel)
  obtain ⟨hs, ht⟩ := Bool.and_eq_true_iff.mp ht
  obtain ⟨hresult, hreturned⟩ := of_decide_eq_true hs
  obtain ⟨x, s', hw, hx⟩ := exists_of_returns ht
  obtain ⟨rfl, hh⟩ := of_decide_eq_true hx
  have hr : Reachable (fun _ _ ↦ True) finishing s :=
    .call (c := .wait) (reachable_oneTask finishing _) trivial trivial hp
  obtain ⟨-, -, hfinished, -, htasks⟩ := wait_gives_up hr hw hh
  exact ⟨s, s', hr, hresult, hreturned, hw, hfinished, htasks⟩

/-- A worker that introduces itself a second time, under the name that stands
for a worker that has not done so. -/
def renamed : Environment := alone (lines ["workqueue 3 host linux x86 4", "resource workers 0 0 1 0 0",
  "workqueue 3 unknown linux x86 4", "available_results", "result 0 0 0 1", "end"])

theorem wait_strands_result :
    Reachable (fun _ _ ↦ True) renamed (oneTask renamed "true".toList) ∧
      ∃ s', wait 20 (oneTask renamed "true".toList) = .done none s' ∧
        s'.finishedTasks.lookup 1 = some 0 ∧ s'.tasks 1 = some 0 := by
  refine ⟨reachable_oneTask _ _, ?_⟩
  obtain ⟨a, s', hw, ht⟩ := exists_of_returns (f := wait) (n := 20) (s := oneTask renamed "true".toList)
    (t := fun a s' ↦ decide (a = none ∧ s'.finishedTasks.lookup 1 = some 0 ∧ s'.tasks 1 = some 0))
    (by decide +kernel)
  obtain ⟨rfl, h₁, h₂⟩ := of_decide_eq_true ht
  exact ⟨s', hw, h₁, h₂⟩

end Cyque.Stranded
