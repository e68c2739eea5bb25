import Modus.Logic

/-!
# The fresh-id counter under any interleaving

`AVAILABLE_VARIABLE_INDEX` is one `AtomicU32` shared by every caller of
`IRTerm::rename` and `Auxiliary::aux`, in lowering and in SLD resolution alike. A
call that hands out an id does one `fetch_add(1, SeqCst)`, so however the callers
interleave, the draws happen one after another. We model the callers as threads,
each with the calls it has still to make, and a run as any order in which the
threads make them, one call at a time.

Along every run the ids handed out are the draw numbers modulo `2 ^ 32`, in order
(`reachable_issued`). They are therefore pairwise distinct while at most `2 ^ 32`
ids have been drawn; `fetch_add` wraps, and the draw after that hands out `0`
again, with no failure (`issued_wraps`).

## Main results

* `Threads.step_issued` — one call appends the id of its draw, if it draws.
* `reachable_issued` — along every run, the `k`-th id is `k` modulo `2 ^ 32`.
* `issued_distinct` — the ids of any run are the draw numbers, distinct up to `2 ^ 32`.
* `issued_wraps` — a thread that draws `2 ^ 32 + 1` ids receives `0` twice.
-/

namespace Modus.Logic

/-! ## Calls and threads -/

/-- A call that may draw an id: `t.rename()` or `IRTerm::aux()`. -/
inductive Call where
  | rename (t : IRTerm)
  | aux
  deriving DecidableEq, Repr

/-- The id a renamed or auxiliary variable carries. -/
def IRTerm.freshId? : IRTerm → Option UInt32
  | .renamedVariable i _ => some i
  | .auxiliaryVariable i => some i
  | _ => none

/-- Making a call at counter `n`: the term returned, and the counter after it. -/
def Call.perform : Call → Nat → IRTerm × Nat
  | .rename t, n => t.rename n
  | .aux, n => Logic.aux n

/-- A call either draws once and returns a term carrying the draw's id, or draws
nothing and returns a term without an id. -/
theorem Call.perform_cases (c : Call) (n : Nat) :
    ((c.perform n).2 = n + 1 ∧ (c.perform n).1.freshId? = some (UInt32.ofNat n)) ∨
      ((c.perform n).2 = n ∧ (c.perform n).1.freshId? = none) := by
  cases c with
  | aux => exact .inl ⟨rfl, rfl⟩
  | rename t => cases t <;> simp [perform, IRTerm.rename, fetchAdd, IRTerm.freshId?]

/-- The callers sharing the counter: the counter, each thread's calls still to
make, and the ids handed out so far, in the order of the draws. -/
structure Threads where
  counter : Nat
  pending : List (List Call)
  issued : List UInt32

/-- Thread `i` makes its next call, if it has one. -/
def Threads.step (s : Threads) (i : Nat) : Option Threads :=
  match s.pending[i]? with
  | some (c :: cs) =>
      some ⟨(c.perform s.counter).2, s.pending.set i cs,
        s.issued ++ (c.perform s.counter).1.freshId?.toList⟩
  | _ => none

/-- The start of a run: the counter at `0`, as at program start, and no id handed out. -/
def Threads.init (pending : List (List Call)) : Threads := ⟨0, pending, []⟩

/-- The states a run can reach, the threads' calls interleaved in any order. -/
inductive Reachable (pending : List (List Call)) : Threads → Prop
  | init : Reachable pending (Threads.init pending)
  | tail {s s' : Threads} {i : Nat} (hs : Reachable pending s) (hstep : s.step i = some s') :
      Reachable pending s'

/-! ## The ids handed out -/

/-- The log of a state is the draw numbers so far, modulo `2 ^ 32`. -/
def Threads.Issued (s : Threads) : Prop := s.issued = (List.range s.counter).map UInt32.ofNat

theorem Threads.step_issued {s s' : Threads} {i : Nat} (hstep : s.step i = some s')
    (hs : s.Issued) : s'.Issued := by
  unfold step at hstep
  split at hstep
  · rename_i c cs _
    cases hstep
    rcases Call.perform_cases c s.counter with ⟨hn, hid⟩ | ⟨hn, hid⟩
    · simp [Issued, hn, hid, hs.symm, List.range_succ]
    · simp [Issued, hn, hid, hs.symm]
  · cases hstep

/-- **Along every run, the `k`-th id handed out is `k` modulo `2 ^ 32`.** -/
theorem reachable_issued {pending : List (List Call)} {s : Threads} (h : Reachable pending s) :
    s.Issued := by
  induction h with
  | init => rfl
  | tail _ hstep ih => exact Threads.step_issued hstep ih

/-- The first `2 ^ 32` draw numbers are distinct as `u32`s. -/
theorem nodup_range_ofNat {n : Nat} (hn : n ≤ 2 ^ 32) :
    ((List.range n).map UInt32.ofNat).Nodup := by
  refine (List.nodup_range n).map_on fun a ha b hb hab => ?_
  have hmod : a % 2 ^ 32 = b % 2 ^ 32 := congrArg UInt32.toNat hab
  rw [List.mem_range] at ha hb
  rwa [Nat.mod_eq_of_lt (by omega), Nat.mod_eq_of_lt (by omega)] at hmod

/-- **Fresh ids.** In every run from program start, whatever the interleaving, the
ids handed out are the draw numbers modulo `2 ^ 32`, in order; so as long as at
most `2 ^ 32` ids have been drawn, they are pairwise distinct. -/
theorem issued_distinct {pending : List (List Call)} {s : Threads} (h : Reachable pending s) :
    s.issued = (List.range s.counter).map UInt32.ofNat ∧
      (s.counter ≤ 2 ^ 32 → s.issued.Nodup) :=
  ⟨reachable_issued h, fun hn => (reachable_issued h) ▸ nodup_range_ofNat hn⟩

/-- Two threads, one renaming a user variable and one drawing an auxiliary
variable, in either order: ids `0` and `1`. -/
theorem issued_distinct_two :
    Reachable [[.rename (.userVariable "X")], [.aux]] ⟨2, [[], []], [0, 1]⟩ ∧
      ([0, 1] : List UInt32) = (List.range 2).map UInt32.ofNat ∧ (2 ≤ 2 ^ 32 → [(0 : UInt32), 1].Nodup) :=
  let h : Reachable [[.rename (.userVariable "X")], [.aux]] ⟨2, [[], []], [0, 1]⟩ :=
    .tail (.tail .init (i := 1) rfl) (i := 0) rfl
  ⟨h, issued_distinct h⟩

/-! ## The counter wraps -/

/-- A thread with `k` auxiliary draws left, scheduled `k` times, makes them all. -/
theorem reachable_replicate_aux (pending : List (List Call)) :
    ∀ (k : Nat) {s : Threads}, Reachable pending s → s.pending = [List.replicate k .aux] →
      ∃ s', Reachable pending s' ∧ s'.counter = s.counter + k
  | 0, s, hs, _ => ⟨s, hs, rfl⟩
  | k + 1, s, hs, hp => by
      have hstep : s.step 0 = some ⟨s.counter + 1, [List.replicate k .aux],
          s.issued ++ [UInt32.ofNat s.counter]⟩ := by
        simp [Threads.step, hp, List.replicate_succ, Call.perform, Logic.aux, fetchAdd,
          IRTerm.freshId?]
      obtain ⟨s', hs', hc⟩ := reachable_replicate_aux pending k (.tail hs hstep) rfl
      exact ⟨s', hs', hc.trans ((Nat.add_right_comm _ _ _).trans (Nat.add_assoc _ _ _))⟩

/-- Past `2 ^ 32` draws, draw `2 ^ 32` has handed out the id of draw `0`. -/
theorem issued_not_nodup {pending : List (List Call)} {s : Threads} (h : Reachable pending s)
    (hc : 2 ^ 32 < s.counter) : ¬ s.issued.Nodup := by
  rw [reachable_issued h]
  intro hnd
  have := List.inj_on_of_nodup_map hnd (List.mem_range.mpr (Nat.zero_lt_of_lt hc))
    (List.mem_range.mpr hc) rfl
  exact absurd this (by decide)

/-- **The counter wraps silently.** A thread that draws `2 ^ 32 + 1` auxiliary
variables from program start reaches a state whose ids are not distinct: draw
`2 ^ 32` hands out `0` again. -/
theorem issued_wraps :
    ∃ s, Reachable [List.replicate (2 ^ 32 + 1) .aux] s ∧ ¬ s.issued.Nodup := by
  obtain ⟨s, hs, hc⟩ := reachable_replicate_aux _ (2 ^ 32 + 1) .init rfl
  have hdraws : 2 ^ 32 < s.counter :=
    hc ▸ Nat.lt_of_lt_of_le (Nat.lt_succ_self _) (Nat.le_add_left _ _)
  exact ⟨s, hs, issued_not_nodup hs hdraws⟩

end Modus.Logic
