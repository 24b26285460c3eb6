import TinyStm.History.RealTime

/-!
# Atomic blocks

A block is a sequential program on a memory of words: what it loads and stores next depends on the
values that it has loaded so far. `AtomicBlock.run` executes it alone, and `AtomicBlock.after` says
what is left of it after the events of a trace. The trace of a block that is through is that of an
execution alone, if its loads returned what they would have returned alone (`trace_eq`).
-/

namespace Trace

variable {α : Type} {w : ℕ} [DecidableEq α] {m : Mem α w}

/-- The older events are executed first. -/
theorem apply_append (tr tr' : Trace α w) (m : Mem α w) :
    apply (tr ++ tr') m = apply tr (apply tr' m) := by
  induction tr with
  | nil => rfl
  | cons e tr ih =>
    cases e with
    | load a x => exact ih
    | store a v k =>
      simp only [List.cons_append, apply_store]
      rw [ih]

/-- The later part of a trace is consistent with what the earlier part leaves. -/
theorem consistent_append {tr tr' : Trace α w} :
    Consistent (tr ++ tr') m ↔ Consistent tr' m ∧ Consistent tr (apply tr' m) := by
  induction tr with
  | nil => simp
  | cons e tr ih =>
    cases e with
    | load a x =>
      simp only [List.cons_append, consistent_load, ih, apply_append]
      tauto
    | store a v k => exact ih

omit [DecidableEq α] in
/-- The stores of both parts. -/
@[simp] theorem writes_append (tr tr' : Trace α w) :
    writes (tr ++ tr') = writes tr ++ writes tr' := by
  induction tr with
  | nil => rfl
  | cons e tr ih => cases e <;> simp [writes, ih]

end Trace

/-- A sequential program on a memory. A block that is `stuck` never ends; with it a loop is the
family of its unfoldings. -/
inductive AtomicBlock (α : Type) (w : ℕ)
  | done
  | stuck
  | load (a : α) (k : BitVec w → AtomicBlock α w)
  | store (a : α) (v k : BitVec w) (b : AtomicBlock α w)

namespace AtomicBlock

variable {α : Type} {w : ℕ}

/-- The block ends here. -/
def IsDone : AtomicBlock α w → Prop
  | done => True
  | _ => False

instance : (b : AtomicBlock α w) → Decidable b.IsDone
  | done => .isTrue trivial
  | stuck => .isFalse id
  | load .. => .isFalse id
  | store .. => .isFalse id

variable [DecidableEq α]

/-- What is left after an event, if the block performs it. -/
def step? : AtomicBlock α w → Event α w → Option (AtomicBlock α w)
  | load a k, .load b x => if a = b then some (k x) else none
  | store a v k b, .store a' v' k' => if a = a' ∧ v = v' ∧ k = k' then some b else none
  | _, _ => none

/-- What is left after the events of a trace. -/
def after (b : AtomicBlock α w) : Trace α w → Option (AtomicBlock α w)
  | [] => some b
  | e :: tr => (b.after tr).bind fun c => c.step? e

/-- The trace is a complete execution. -/
def Completes (b : AtomicBlock α w) (tr : Trace α w) : Prop := ∃ c, b.after tr = some c ∧ c.IsDone

/-- The block has performed the events of the trace, and the next one it may perform is `e`. -/
def Performs (b : AtomicBlock α w) (tr : Trace α w) (e : Event α w) : Prop :=
  (b.after (e :: tr)).isSome

instance (b : AtomicBlock α w) (tr : Trace α w) : Decidable (b.Completes tr) :=
  decidable_of_iff (∃ c ∈ b.after tr, c.IsDone) Iff.rfl

instance (b : AtomicBlock α w) (tr : Trace α w) (e : Event α w) : Decidable (b.Performs tr e) :=
  inferInstanceAs (Decidable (_ = true))

/-- The events of an execution alone. -/
def trace : AtomicBlock α w → Mem α w → Trace α w
  | done, _ => []
  | stuck, _ => []
  | load a k, m => (k (m a)).trace m ++ [.load a (m a)]
  | store a v k b, m =>
    b.trace (Function.update m a (BitVec.merge (m a) v k)) ++ [.store a v k]

/-- The memory after an execution alone. -/
def run : AtomicBlock α w → Mem α w → Mem α w
  | done, m => m
  | stuck, m => m
  | load a k, m => (k (m a)).run m
  | store a v k b, m => b.run (Function.update m a (BitVec.merge (m a) v k))

/-- An execution alone gets to the end. -/
def Halts : AtomicBlock α w → Mem α w → Prop
  | done, _ => True
  | stuck, _ => False
  | load a k, m => (k (m a)).Halts m
  | store a v k b, m => b.Halts (Function.update m a (BitVec.merge (m a) v k))

variable {b c : AtomicBlock α w} {e : Event α w} {tr : Trace α w} {m : Mem α w}

/-- An execution alone loads what is there. -/
theorem trace_consistent (b : AtomicBlock α w) (m : Mem α w) : (b.trace m).Consistent m := by
  induction b generalizing m with
  | done => trivial
  | stuck => trivial
  | load a k ih => exact Trace.consistent_append.2 ⟨⟨rfl, trivial⟩, ih (m a) m⟩
  | store a v k b ih => exact Trace.consistent_append.2 ⟨trivial, ih _⟩

/-- One event. -/
theorem step?_run {m : Mem α w} (h : b.step? e = some c) (he : Trace.Consistent [e] m) :
    b.run m = c.run (Trace.apply [e] m) ∧ b.trace m = c.trace (Trace.apply [e] m) ++ [e] := by
  cases b with
  | done => cases e <;> cases h
  | stuck => cases e <;> cases h
  | load a k =>
    cases e with
    | store a' v k' => cases h
    | load a' x =>
      simp only [step?, Option.ite_none_right_eq_some, Option.some.injEq] at h
      obtain ⟨rfl, rfl⟩ := h
      obtain ⟨rfl, -⟩ := he
      exact ⟨rfl, rfl⟩
  | store a v k b =>
    cases e with
    | load a' x => cases h
    | store a' v' k' =>
      simp only [step?, Option.ite_none_right_eq_some, Option.some.injEq] at h
      obtain ⟨⟨rfl, rfl, rfl⟩, rfl⟩ := h
      exact ⟨rfl, rfl⟩

/-- Where the loads of a trace return what they would have returned alone, the rest of the block
ends the execution. -/
theorem after_run (h : b.after tr = some c) (ht : tr.Consistent m) :
    b.run m = c.run (tr.apply m) ∧ b.trace m = c.trace (tr.apply m) ++ tr := by
  induction tr generalizing c with
  | nil =>
    cases h
    simp
  | cons e tr ih =>
    obtain ⟨d, hd, hstep⟩ := Option.bind_eq_some_iff.1 h
    rw [← List.singleton_append] at ht ⊢
    obtain ⟨htr, he⟩ := Trace.consistent_append.1 ht
    obtain ⟨hrun, htrace⟩ := ih hd htr
    obtain ⟨hrun', htrace'⟩ := step?_run hstep he
    rw [Trace.apply_append, hrun, htrace, hrun', htrace']
    simp

/-- A block that is done changes nothing. -/
theorem IsDone.run (h : c.IsDone) : c.run m = m ∧ c.trace m = [] := by
  cases c with
  | done => exact ⟨rfl, rfl⟩
  | stuck => cases h
  | load a k => cases h
  | store a v k b => cases h

/-- A block that is through has changed the memory as an execution alone does. -/
theorem Completes.run_eq (h : b.Completes tr) (ht : tr.Consistent m) : tr.apply m = b.run m := by
  obtain ⟨c, hc, hdone⟩ := h
  rw [(after_run hc ht).1, hdone.run.1]

/-- A block that is through has loaded what an execution alone loads. -/
theorem Completes.trace_eq (h : b.Completes tr) (ht : tr.Consistent m) : tr = b.trace m := by
  obtain ⟨c, hc, hdone⟩ := h
  rw [(after_run hc ht).2, hdone.run.2, List.nil_append]

end AtomicBlock

namespace History

variable {τ α ι : Type} {w : ℕ} [DecidableEq α] {L : History τ α w} {m m' : Mem α w}
  {blocks : ι → AtomicBlock α w}

/-- The memory after a commit that comes last, at the time `N` or right after it. -/
theorem memAt_cons_last {c : Commit τ α w} {m₀ : Mem α w} {N n : ℕ}
    (hL : ∀ d ∈ L, d.update → d.ts ≤ N) (hc : c.ts = if c.update then N + 1 else N)
    (hro : ¬ c.update → c.trace.writes = []) (hn : c.ts ≤ n) :
    memAt m₀ (c :: L) n = c.trace.apply (memAt m₀ L N) := by
  cases hu : c.update with
  | true =>
    rw [hu, if_pos rfl] at hc
    have hlater : ∀ d ∈ c :: L, d.update → N + 1 < d.ts → n < d.ts := by
      intro d hd hdu hlt
      rcases List.mem_cons.1 hd with rfl | hd
      · omega
      · have := hL d hd hdu
        omega
    have hat : at? (c :: L) (N + 1) = some c := by simp [at?, hu, hc]
    have hbefore : memAt m₀ (c :: L) N = memAt m₀ L N := memAt_cons_of_lt (by omega)
    rw [memAt_eq_of_le (hc ▸ hn) hlater, memAt, hat, hbefore]
  | false =>
    simp only [hu, Bool.false_eq_true, if_false] at hc
    have hwrites := hro (by simp [hu])
    rw [memAt_cons_of_not_update hu, memAt_eq_of_le (hc ▸ hn) fun d hd hdu hlt =>
      absurd (hL d hd hdu) (Nat.not_le.2 hlt)]
    funext a
    exact (Trace.apply_of_not_mem_writes (by simp [hwrites])).symm

variable (blocks) in
/-- The commits are executions of blocks, alone and one after the other from `m`, and the last one
leaves `m'`. -/
def Executes : Mem α w → History τ α w → Mem α w → Prop
  | m, [], m' => m' = m
  | m, c :: L, m' => ∃ i, (blocks i).Completes c.trace ∧ c.trace = (blocks i).trace m ∧
      Executes ((blocks i).run m) L m'

/-- Commits that replay and are complete executions of blocks. -/
theorem Replays.executes (h : Replays m L m') (hb : ∀ c ∈ L, ∃ i, (blocks i).Completes c.trace) :
    Executes blocks m L m' := by
  induction L generalizing m with
  | nil => exact h
  | cons c L ih =>
    obtain ⟨hcons, h⟩ := h
    obtain ⟨⟨i, hi⟩, hb⟩ := List.forall_mem_cons.1 hb
    rw [hi.run_eq hcons] at h
    exact ⟨i, hi, hi.trace_eq hcons, ih h hb⟩

/-- What every block keeps holds before and after every commit. -/
theorem Executes.invariant {I : Mem α w → Prop} (h : Executes blocks m L m')
    (hI : ∀ i m, I m → I ((blocks i).run m)) (hm : I m) :
    I m' ∧ ∀ c ∈ L, ∃ i n, (blocks i).Completes c.trace ∧ I n ∧ c.trace = (blocks i).trace n := by
  induction L generalizing m with
  | nil => exact ⟨h ▸ hm, nofun⟩
  | cons c L ih =>
    obtain ⟨i, hi, htrace, h⟩ := h
    obtain ⟨hm', hall⟩ := ih h (hI i m hm)
    exact ⟨hm', List.forall_mem_cons.2 ⟨⟨i, m, hi, hm, htrace⟩, hall⟩⟩

end History
