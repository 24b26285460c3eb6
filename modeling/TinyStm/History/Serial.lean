import TinyStm.History.Trace
import Mathlib.Data.List.Sort

/-!
# Histories of timestamped commits

A multi-version memory: a list of committed transactions, each with its trace and a timestamp. An
update transaction takes effect at its own timestamp, any other one reads the memory as of its
timestamp. `memAt m₀ L n` is the memory as of timestamp `n`, `Sound m₀ L` says that every commit
read the memory it must read, and `Sound.replays` is serializability: every order of the commits
that follows the timestamps replays them one after the other from `m₀`.
-/

/-- A committed transaction of thread `tid`. -/
structure Commit (τ α : Type) (w : ℕ) where
  tid : τ
  ts : ℕ
  update : Bool
  trace : Trace α w
  deriving DecidableEq

namespace Commit

variable {τ α : Type} {w : ℕ}

/-- The place in the serial order: an update at its timestamp, another commit after the updates up
to its timestamp and before all others. -/
def key (c : Commit τ α w) : ℕ := if c.update then 2 * c.ts else 2 * c.ts + 1

/-- The timestamp of the memory the commit read. -/
def pos (c : Commit τ α w) : ℕ := if c.update then c.ts - 1 else c.ts

end Commit

/-- The commits in a serial order. -/
abbrev History (τ α : Type) (w : ℕ) := List (Commit τ α w)

namespace History

variable {τ α : Type} {w : ℕ} [DecidableEq α]

/-- The update that took effect at a timestamp. -/
def at? (L : History τ α w) (n : ℕ) : Option (Commit τ α w) :=
  L.find? fun c => c.update && c.ts == n

/-- The memory as of timestamp `n`. -/
def memAt (m₀ : Mem α w) (L : History τ α w) : ℕ → Mem α w
  | 0 => m₀
  | n + 1 =>
    match L.at? (n + 1) with
    | some c => c.trace.apply (memAt m₀ L n)
    | none => memAt m₀ L n

/-- Executed one after the other from `m`, the commits' loads return the values they returned, and
the last one leaves `m'`. -/
def Replays : Mem α w → History τ α w → Mem α w → Prop
  | m, [], m' => m' = m
  | m, c :: L, m' => c.trace.Consistent m ∧ Replays (c.trace.apply m) L m'

/-- Executed one after the other from `m`, the commits' loads return the values they returned. -/
def Replayable : Mem α w → History τ α w → Prop
  | _, [] => True
  | m, c :: L => c.trace.Consistent m ∧ Replayable (c.trace.apply m) L

instance Replayable.decidable : (m : Mem α w) → (L : History τ α w) → Decidable (Replayable m L)
  | _, [] => .isTrue trivial
  | m, c :: L =>
    have := Replayable.decidable (c.trace.apply m) L
    inferInstanceAs (Decidable (c.trace.Consistent m ∧ Replayable (c.trace.apply m) L))

/-- A history that is replayed can be replayed. -/
theorem Replays.replayable {m m' : Mem α w} {L : History τ α w} (h : Replays m L m') :
    Replayable m L := by
  induction L generalizing m with
  | nil => trivial
  | cons c L ih => exact ⟨h.1, ih h.2⟩

/-- Updates have distinct positive timestamps, and other commits have stored nothing. -/
structure Ordered (L : History τ α w) : Prop where
  distinct : L.Pairwise fun c d => c.update → d.update → c.ts ≠ d.ts
  pos : ∀ c ∈ L, c.update → 1 ≤ c.ts
  readOnly : ∀ c ∈ L, ¬ c.update → c.trace.writes = []

/-- The commits are ordered, and each commit read the memory as of its place. -/
structure Sound (m₀ : Mem α w) (L : History τ α w) : Prop extends Ordered L where
  consistent : ∀ c ∈ L, c.trace.Consistent (memAt m₀ L c.pos)

variable {m₀ : Mem α w} {L : History τ α w} {c : Commit τ α w} {n t : ℕ} {a : α}

omit [DecidableEq α] in
/-- No commit has the timestamp `n`. -/
theorem at?_eq_none : L.at? n = none ↔ ∀ c ∈ L, c.update → c.ts ≠ n := by
  simp [at?]

omit [DecidableEq α] in
/-- With distinct timestamps the update at a timestamp is the one that has it. -/
theorem at?_of_mem (hd : L.Pairwise fun c d => c.update → d.update → c.ts ≠ d.ts) (hc : c ∈ L)
    (hu : c.update) : L.at? c.ts = some c := by
  induction L with
  | nil => cases hc
  | cons d L ih =>
    obtain ⟨hd1, hd2⟩ := List.pairwise_cons.1 hd
    rcases List.mem_cons.1 hc with rfl | hc
    · simp [at?, hu]
    · have hne : ¬ (d.update && d.ts == c.ts) := by
        intro h
        simp only [Bool.and_eq_true, beq_iff_eq] at h
        exact hd1 c hc h.1 hu h.2
      simpa [at?, List.find?_cons, hne] using ih hd2 hc

/-- The memory does not change at a time without a commit. -/
theorem memAt_succ_of_none (h : ∀ c ∈ L, c.update → c.ts ≠ n + 1) :
    memAt m₀ L (n + 1) = memAt m₀ L n := by
  rw [memAt, at?_eq_none.2 h]

/-- The memory after a commit. -/
theorem memAt_of_mem (hd : L.Pairwise fun c d => c.update → d.update → c.ts ≠ d.ts) (hc : c ∈ L)
    (hu : c.update) (ht : 1 ≤ c.ts) :
    memAt m₀ L c.ts = c.trace.apply (memAt m₀ L (c.ts - 1)) := by
  obtain ⟨n, hn⟩ : ∃ n, c.ts = n + 1 := ⟨c.ts - 1, by omega⟩
  have h := at?_of_mem hd hc hu
  rw [hn] at h ⊢
  rw [memAt, h]
  rfl

/-- Between two timestamps without an update the memory is the same. -/
theorem memAt_eq_of_le {k : ℕ} (hk : n ≤ k) (h : ∀ c ∈ L, c.update → n < c.ts → k < c.ts) :
    memAt m₀ L k = memAt m₀ L n := by
  induction k, hk using Nat.le_induction with
  | base => rfl
  | succ k hk ih =>
    have hne : ∀ c ∈ L, c.update → c.ts ≠ k + 1 := by
      intro c hc hu he
      have := h c hc hu (by omega)
      omega
    rw [memAt_succ_of_none hne]
    refine ih fun c hc hu hlt => ?_
    have := h c hc hu hlt
    omega

/-- A commit that is no update does not change the memory. -/
theorem memAt_cons_of_not_update (h : c.update = false) : memAt m₀ (c :: L) n = memAt m₀ L n := by
  induction n with
  | zero => rfl
  | succ n ih => simp [memAt, at?, h, ih]

/-- Before its timestamp a new update changes nothing. -/
theorem memAt_cons_of_lt (hn : n < c.ts) : memAt m₀ (c :: L) n = memAt m₀ L n := by
  induction n with
  | zero => rfl
  | succ n ih =>
    have hne : (c.ts == n + 1) = false := by simpa using by omega
    simp [memAt, at?, hne, ih (by omega)]

/-- A new update changes only the words it stores to. -/
theorem memAt_cons_of_not_mem (hd : ∀ d ∈ L, d.update → d.ts ≠ c.ts) (ha : a ∉ c.trace.writes) :
    memAt m₀ (c :: L) n a = memAt m₀ L n a := by
  induction n with
  | zero => rfl
  | succ n ih =>
    simp only [memAt, at?, List.find?_cons]
    by_cases hc : (c.update && c.ts == n + 1) = true
    · have hL : L.at? (n + 1) = none := by
        simp only [Bool.and_eq_true, beq_iff_eq] at hc
        exact at?_eq_none.2 fun d hd' hu he => hd d hd' hu (he.trans hc.2.symm)
      rw [at?] at hL
      rw [hc, hL]
      exact (Trace.apply_of_not_mem_writes ha).trans ih
    · rw [Bool.not_eq_true] at hc
      rw [hc]
      cases L.find? (fun c => c.update && c.ts == n + 1) with
      | none => exact ih
      | some d => exact Trace.apply_congr ih

/-- From its timestamp on, a word that a new update stores to and no later update does has the
value the new update gives it. -/
theorem memAt_cons_of_mem (hu : c.update) (h1 : 1 ≤ c.ts)
    (hw : ∀ d ∈ L, d.update → c.ts < d.ts → a ∉ d.trace.writes) (hn : c.ts ≤ n) :
    memAt m₀ (c :: L) n a = c.trace.apply (memAt m₀ L (c.ts - 1)) a := by
  induction n, hn using Nat.le_induction with
  | base =>
    obtain ⟨k, hk⟩ : ∃ k, c.ts = k + 1 := ⟨c.ts - 1, by omega⟩
    rw [hk, memAt]
    simp only [at?, List.find?_cons, hu, hk, beq_self_eq_true, Bool.and_self]
    rw [memAt_cons_of_lt (by omega)]
    rfl
  | succ n hn ih =>
    have hne : (c.ts == n + 1) = false := by simpa using by omega
    simp only [memAt, at?, List.find?_cons, hne, Bool.and_false]
    cases hf : L.find? (fun c => c.update && c.ts == n + 1) with
    | none => exact ih
    | some d =>
      have hd1 := List.find?_some hf
      simp only [Bool.and_eq_true, beq_iff_eq] at hd1
      exact (Trace.apply_of_not_mem_writes
        (hw d (List.mem_of_find?_eq_some hf) hd1.1 (by omega))).trans ih

/-- The induction behind `Sound.replays`: a sorted list of the commits from timestamp `n` on
replays from the memory as of `n`. -/
theorem Sound.replays_from (hL : Sound m₀ L) {N : ℕ} (hN : ∀ c ∈ L, c.update → c.ts ≤ N) :
    ∀ {l : History τ α w} {n : ℕ}, n ≤ N → (∀ c ∈ l, c ∈ L) → l.Pairwise (·.key ≤ ·.key) →
      l.Pairwise (fun c d => c.update → d.update → c.ts ≠ d.ts) →
      (∀ c ∈ l, if c.update then n < c.ts else n ≤ c.ts) →
      (∀ c ∈ L, c.update → n < c.ts → c ∈ l) → Replays (memAt m₀ L n) l (memAt m₀ L N)
  | [], n, hn, _, _, _, _, hall => memAt_eq_of_le hn fun c hc hu hlt => nomatch hall c hc hu hlt
  | c :: l, n, hn, hmem, hs, hd, hlow, hall => by
    obtain ⟨hs1, hs2⟩ := List.pairwise_cons.1 hs
    obtain ⟨hd1, hd2⟩ := List.pairwise_cons.1 hd
    have hc := hmem c (.head _)
    have hcons := hL.consistent c hc
    have hcl := hlow c (.head _)
    cases hu : c.update with
    | true =>
      simp only [hu, if_true] at hcl
      -- no update lies between `n` and `c`, since it would come before `c` in the list
      have hgap : ∀ d ∈ L, d.update → n < d.ts → c.ts - 1 < d.ts := by
        intro d hdL hdu hnd
        rcases List.mem_cons.1 (hall d hdL hdu hnd) with rfl | hdl
        · omega
        · have := hs1 d hdl
          simp only [Commit.key, hu, hdu, if_true] at this
          omega
      have hprev : memAt m₀ L (c.ts - 1) = memAt m₀ L n := memAt_eq_of_le (by omega) hgap
      have hnext : memAt m₀ L c.ts = c.trace.apply (memAt m₀ L n) := by
        rw [memAt_of_mem hL.distinct hc hu (hL.pos c hc hu), hprev]
      simp only [Commit.pos, hu, if_true, hprev] at hcons
      refine ⟨hcons, ?_⟩
      rw [← hnext]
      refine hL.replays_from hN (hN c hc hu) (fun d hd => hmem d (.tail _ hd)) hs2 hd2
        (fun d hdl => ?_) fun d hdL hdu hlt => ?_
      · have hk := hs1 d hdl
        have hne := hd1 d hdl hu
        simp only [Commit.key, hu, if_true] at hk
        split
        · next hdu =>
          have := hne hdu
          simp only [hdu, if_true] at hk
          omega
        · next hdu =>
          simp only [hdu] at hk
          simp only [Bool.false_eq_true, if_false] at hk
          omega
      · rcases List.mem_cons.1 (hall d hdL hdu (by omega)) with rfl | hdl
        · omega
        · exact hdl
    | false =>
      simp only [hu, Bool.false_eq_true, if_false] at hcl
      -- no update lies between `n` and the place of `c`
      have hgap : ∀ d ∈ L, d.update → n < d.ts → c.ts < d.ts := by
        intro d hdL hdu hnd
        rcases List.mem_cons.1 (hall d hdL hdu hnd) with rfl | hdl
        · simp [hu] at hdu
        · have := hs1 d hdl
          simp only [Commit.key, hu, hdu, if_true, Bool.false_eq_true, if_false] at this
          omega
      have hprev : memAt m₀ L c.ts = memAt m₀ L n := memAt_eq_of_le hcl hgap
      have hid : c.trace.apply (memAt m₀ L n) = memAt m₀ L n :=
        funext fun a => Trace.apply_of_not_mem_writes
          (by rw [hL.readOnly c hc (by simp [hu])]; exact List.not_mem_nil)
      simp only [Commit.pos, hu, Bool.false_eq_true, if_false, hprev] at hcons
      refine ⟨hcons, ?_⟩
      rw [hid]
      refine hL.replays_from hN hn (fun d hd => hmem d (.tail _ hd)) hs2 hd2
        (fun d hdl => hlow d (.tail _ hdl)) fun d hdL hdu hlt => ?_
      rcases List.mem_cons.1 (hall d hdL hdu hlt) with rfl | hdl
      · simp [hu] at hdu
      · exact hdl

/-- Serializability: every order of the commits that follows their keys replays them from the
initial memory to the memory as of the last timestamp. -/
theorem Sound.replays (hL : Sound m₀ L) {N : ℕ} (hN : ∀ c ∈ L, c.update → c.ts ≤ N)
    {l : History τ α w} (hl : l.Perm L) (hs : l.Pairwise (·.key ≤ ·.key)) :
    Replays m₀ l (memAt m₀ L N) := by
  refine hL.replays_from hN (Nat.zero_le N) (fun c => hl.mem_iff.1) hs
    (hl.symm.pairwise hL.distinct fun h hu hv => (h hv hu).symm) (fun c hc => ?_)
    fun c hc _ _ => hl.mem_iff.2 hc
  split
  · exact hL.pos c (hl.mem_iff.1 hc) ‹_›
  · exact Nat.zero_le _

end History
