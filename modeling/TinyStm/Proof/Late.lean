import TinyStm.Conc.Under
import TinyStm.Proof.Pushes

/-!
# Late commits

A transaction that begins when the clock is `N` takes its place in the serial order after `N`. What
carries it through an attempt is that the snapshot ends at `N` or later: the start and every
extension read the clock, an update draws its timestamp from it, and a commit that has written
nothing takes the end of the snapshot.
-/

namespace TinyStm

section
variable {Tid Addr Lock : Type} {w : ℕ}

/-- The commit is not one of a thread in `F`, or its place is after `N`. -/
def After (F : Tid → Prop) (N : ℕ) (c : Commit Tid Addr w) : Prop := F c.tid → 2 * N + 1 ≤ c.key

/-- The commits since they were `L`, when the clock was `N`: those of the threads in `F` have their
place after `N`. -/
abbrev late (F : Tid → Prop) (N : ℕ) (L : History Tid Addr w) : RG (State Tid Addr Lock w) Tid :=
  pushing (After F N) N L

/-- The snapshot of `p` ends at `N` or later, if `p` is in `F`. -/
def lateEnd (F : Tid → Prop) (N : ℕ) (p : Tid) (x : Place Addr w) : Prop := F p → N ≤ x.end_

variable {F : Tid → Prop} {p : Tid} {N : ℕ} {L : History Tid Addr w}

theorem lateEnd_lasting : Lasting N (lateEnd F N p : Place Addr w → Prop) (lateEnd F N p) :=
  ⟨fun _ _ hn _ _ => hn, fun _ h _ _ => h⟩

/-- Such a snapshot is committed late. -/
theorem lateEnd_vouches : Vouches (After F N) N p (lateEnd F N p : Place Addr w → Prop) where
  update x t ht _ _ := by
    simp only [Commit.key, if_true]
    omega
  readOnly x n hn h hF := by
    have hend : N ≤ x.end_ := h hF
    simp only [Commit.key, Bool.false_eq_true, if_false]
    omega

/-- About no thread nothing is said. -/
theorem late_refines (F : Tid → Prop) (N : ℕ) (L : History Tid Addr w) :
    (late F N L : RG (State Tid Addr Lock w) Tid).Refines (late (fun _ => False) 0 []) :=
  ⟨fun s _ => ⟨s.commits, (List.append_nil _).symm, fun _ _ => False.elim⟩,
    fun _ _ => Nat.zero_le _, fun _ _ _ _ _ h => h⟩

/-- A thread that is not in `F` adds no commit of one in `F`. -/
theorem late_of_pushes {s s' : State Tid Addr Lock w} (hs : (late F N L).Ok s) (h : Pushes p s s')
    (hp : ¬ F p) : (late F N L).inv s' := by
  obtain ⟨l, hl, hkey⟩ := hs.inv
  obtain ⟨l', hl', htid⟩ := h.commits
  refine ⟨l' ++ l, by rw [hl', hl, List.append_assoc], fun c hc hF => ?_⟩
  rcases List.mem_append.1 hc with hc | hc
  · exact (hp (htid c hc ▸ hF)).elim
  · exact hkey c hc hF

end

variable {Tid Addr Lock : Type} {w : ℕ} [DecidableEq Tid] [DecidableEq Addr] [DecidableEq Lock]
  {cfg : Config Addr Lock} {F : Tid → Prop} {N : ℕ} {L : History Tid Addr w}

/-- Between two calls a transaction of `p` that is under way has a snapshot that ends at `N` or
later. -/
abbrev lateReady (F : Tid → Prop) (N : ℕ) (L : History Tid Addr w) (p : Tid) :
    Assn (late F N L : RG (State Tid Addr Lock w) Tid) p :=
  placeReady (After F N) N L p (lateEnd F N p)

/-- What holds before a call. -/
abbrev lateReadyFor (F : Tid → Prop) (N : ℕ) (L : History Tid Addr w) (p : Tid) (cmd : Cmd Addr w) :
    Assn (late F N L : RG (State Tid Addr Lock w) Tid) p :=
  placeReadyFor (After F N) N L p (lateEnd F N p) (lateEnd F N p) cmd

/-- Every call keeps the place of what its thread commits late. -/
theorem exec_late (p : Tid) (cmd : Cmd Addr w) :
    Triple (late F N L) p (lateReadyFor F N L p cmd) (exec cfg p cmd : M Tid Addr Lock w _)
      (fun _ => lateReady F N L p) (lateReady F N L p) :=
  exec_pushing lateEnd_lasting lateEnd_lasting (fun _ h => h) (fun _ _ h => h) lateEnd_vouches cmd

end TinyStm
