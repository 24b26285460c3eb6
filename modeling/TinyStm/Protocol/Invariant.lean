import TinyStm.Protocol.View

/-!
# The invariant and the guarantee

`View.Inv` holds in every reachable state: the committed memory of a stripe is settled from the
timestamp on at which it is due, and it is in memory when the stripe is quiet. `View.Guar p v v'` is
what a step of thread `p` may do to the others. Most parts of the invariant speak of one stripe, and
of its owner if it has one; the rest order the timestamps of the commits and say who has the token.
-/

namespace TinyStm

namespace View

variable {Tid Addr Lock : Type} {w : ℕ} [DecidableEq Addr]

/-- The invariant of every reachable state. -/
structure Inv (S : Premises Addr Lock w) (v : View Tid Addr Lock w) : Prop where
  ordered : v.commits.Ordered
  consistent : S.hint → ∀ c ∈ v.commits, c.trace.Consistent (v.memAt S c.pos)
  ts_le : ∀ c ∈ v.commits, c.ts ≤ v.clock
  ticket : ∀ p t, v.phase p = .ticket t →
    1 ≤ t ∧ t ≤ v.clock ∧ ∀ c ∈ v.commits, c.update → c.ts ≠ t
  ticket_inj : ∀ p q t, v.phase p = .ticket t → v.phase q = .ticket t → p = q
  settled : ∀ a n, v.due (S.cfg.getLock a) ≤ n → v.memAt S n a = v.cur S a
  due_le : ∀ ℓ, v.due ℓ ≤ v.clock
  late : ∀ ℓ p i t, v.locks ℓ = .owned p i →
    v.phase p = .ticket t ∨ v.phase p = .installing t → v.lastTs ℓ < t
  apart : ∀ p t, v.phase p = .ticket t → ∀ c ∈ v.commits, t ≤ c.pos →
    ∀ a, (a ∈ c.trace.writes ∨ S.hint ∧ a ∈ c.trace.reads) → ¬ v.Holds p (S.cfg.getLock a)
  mem : ∀ a, v.Quiet S (S.cfg.getLock a) → v.mem a = v.cur S a
  token : S.hint → ∀ p, 2 ≤ v.irr p → v.token = 1
  token_inj : S.hint → ∀ p q, 2 ≤ v.irr p → 2 ≤ v.irr q → p = q
  off : ¬ S.tokens → v.token = 0 ∧ ∀ p, v.irr p = 0
  inside : v.overrun = false
  decided : ∀ p t, v.phase p = .installing t →
    ∃ c ∈ v.commits, c.tid = p ∧ c.ts = t ∧ c.update = true
  owner : ∀ p ℓ, v.Holds p ℓ → S.attrs (v.attr p)
  plain : ∀ ℓ, Plain (v.lastWord ℓ) ∨ ∃ attr, S.attrs attr ∧ S.cfg.designOf attr = .writeThrough

omit [DecidableEq Addr] in
/-- The word that thread `p` stores to a lock that it releases: its timestamp when it installs, or else,
when it aborts in a write-back design, the version that the lock had when it was acquired. -/
def Releases (S : Premises Addr Lock w) (v : View Tid Addr Lock w) (p : Tid) (ℓ : Lock) (l : ℕ) :
    Prop :=
  (∀ t, v.phase p = .installing t → l = lockSetTimestamp t) ∧
    ((∀ t, v.phase p ≠ .installing t) → v.phase p = .aborting ∧
      (S.cfg.designOf (v.attr p) ≠ .writeThrough → l = lockSetTimestamp (v.lastTs ℓ)))

omit [DecidableEq Addr] in
/-- What a step of thread `p` does to a lock: nothing, or it acquires the lock, or releases it. -/
inductive Turn (S : Premises Addr Lock w) (p : Tid) (v v' : View Tid Addr Lock w) (ℓ : Lock) : Prop
  | keep : v'.locks ℓ = v.locks ℓ → (∀ q, v.Holds q ℓ → v'.saved ℓ = v.saved ℓ) → Turn S p v v' ℓ
  | acquire {l i : ℕ} : v.locks ℓ = .free l → v'.locks ℓ = .owned p i → v'.saved ℓ = l →
      Turn S p v v' ℓ
  | release {l i : ℕ} : v.locks ℓ = .owned p i → v'.locks ℓ = .free l → v.Releases S p ℓ l →
      Turn S p v v' ℓ

/-- What a step of thread `p` may do. -/
structure Guar (S : Premises Addr Lock w) (p : Tid) (v v' : View Tid Addr Lock w) : Prop where
  clock : v.clock ≤ v'.clock
  mem : ∀ a, v'.mem a = v.mem a ∨ v.Holds p (S.cfg.getLock a)
  still : ∀ a, v.Quiet S (S.cfg.getLock a) → v'.mem a = v.mem a
  lastTs : ∀ ℓ, v.lastTs ℓ ≤ v'.lastTs ℓ
  due : ∀ ℓ, v.due ℓ ≤ v'.due ℓ
  cur : ∀ a, v'.cur S a = v.cur S a ∨
    v.due (S.cfg.getLock a) < v'.due (S.cfg.getLock a) ∧ (v.phase p).Passed ∧
      v.Holds p (S.cfg.getLock a)
  memAt : ∀ a n, n ≤ v.clock → v'.memAt S n a = v.memAt S n a ∨
    ∃ t, v.phase p = .ticket t ∧ t ≤ n ∧ v.Holds p (S.cfg.getLock a)
  locks : ∀ q, q ≠ p → ∀ ℓ i, v'.locks ℓ = .owned q i ↔ v.locks ℓ = .owned q i
  saved : ∀ q, q ≠ p → ∀ ℓ, v.Holds q ℓ → v'.saved ℓ = v.saved ℓ
  acquire : ∀ ℓ, v'.Holds p ℓ → v.Holds p ℓ ∨ v'.phase p = .running
  draw : ∀ t, v'.phase p = .ticket t → v.phase p = .ticket t ∨ v.clock < t
  stamp : ∀ ℓ, v.stamp S ℓ ≤ v'.stamp S ℓ
  pass : (v'.phase p).Passed → (v.phase p).Passed ∨ v.token = 0 ∨ 2 ≤ v.irr p
  phase : ∀ q, q ≠ p → v'.phase q = v.phase q
  irr : ∀ q, q ≠ p → v'.irr q = v.irr q
  attr : ∀ q, q ≠ p → v'.attr q = v.attr q
  turn : ∀ ℓ, Turn S p v v' ℓ
  commits : ∀ c ∈ v.commits, c ∈ v'.commits
  decide : ∀ t, v'.phase p = .installing t → v.phase p = .installing t ∨ v.phase p = .ticket t
  abort : v.phase p = .aborting → v'.phase p = .aborting ∨ ∀ ℓ, ¬ v'.Holds p ℓ

variable {S : Premises Addr Lock w} {v : View Tid Addr Lock w} {p q : Tid} {ℓ : Lock}
  {l i t n : ℕ} {a : Addr}

theorem Guar.refl (S : Premises Addr Lock w) (p : Tid) (v : View Tid Addr Lock w) :
    Guar S p v v where
  clock := le_refl _
  mem _ := .inl rfl
  still _ _ := rfl
  lastTs _ := le_refl _
  due _ := le_refl _
  cur _ := .inl rfl
  memAt _ _ _ := .inl rfl
  locks _ _ _ _ := Iff.rfl
  saved _ _ _ _ := rfl
  acquire _ h := .inl h
  draw _ h := .inl h
  stamp _ := le_refl _
  pass h := .inl h
  phase _ _ := rfl
  irr _ _ := rfl
  attr _ _ := rfl
  turn _ := .keep rfl fun _ _ => rfl
  commits _ h := h
  decide _ h := .inl h
  abort h := .inl h

namespace Inv

/-- A history whose commits respect the read-only hint is sound. -/
theorem sound (h : Inv S v) (hS : S.hint) : v.commits.Sound S.mem₀ where
  toOrdered := h.ordered
  consistent := h.consistent hS

/-- Beyond the clock nothing has been committed. -/
theorem memAt_of_clock_le (h : Inv S v) (hn : v.clock ≤ n) : v.memAt S n = v.cur S := by
  refine History.memAt_eq_of_le hn fun c hc _ hlt => ?_
  have := h.ts_le c hc
  omega

/-- The clock alone does not change the committed memory. -/
theorem cur_of_clock_le (h : Inv S v) {v' : View Tid Addr Lock w} (hc : v'.commits = v.commits)
    (hn : v.clock ≤ v'.clock) : v'.cur S = v.cur S := by
  rw [← h.memAt_of_clock_le hn, View.cur, View.memAt, hc]
  rfl

/-- The last version of a lock is not newer than the timestamp at which its stripe is due. -/
theorem lastTs_le_due (h : Inv S v) (ℓ : Lock) : v.lastTs ℓ ≤ v.due ℓ := by
  cases hl : v.locks ℓ with
  | free l => rw [lastTs_of_free hl, due_of_free hl]
  | owned q i =>
    by_cases hq : ∃ t, v.phase q = .installing t
    · obtain ⟨t, ht⟩ := hq
      rw [due_of_installing hl ht]
      exact (h.late ℓ q i t hl (.inr ht)).le
    · rw [due_of_owned hl fun t ht => hq ⟨t, ht⟩]

theorem lastTs_le_clock (h : Inv S v) (ℓ : Lock) : v.lastTs ℓ ≤ v.clock :=
  (h.lastTs_le_due ℓ).trans (h.due_le ℓ)

/-- A stripe under a lock of a thread that is not installing is settled from its last version on. -/
theorem settled_of_holds (h : Inv S v) (hp : v.Holds p (S.cfg.getLock a))
    (hi : ∀ t, v.phase p ≠ .installing t) (hn : v.lastTs (S.cfg.getLock a) ≤ n) :
    v.memAt S n a = v.cur S a := by
  obtain ⟨i, hi'⟩ := hp
  exact h.settled a n (by rwa [due_of_owned hi' hi])

/-- A free stripe is settled from its version on. -/
theorem settled_of_free (h : Inv S v) (hl : v.locks (S.cfg.getLock a) = .free l)
    (hn : lockGetTimestamp l ≤ n) : v.memAt S n a = v.cur S a :=
  h.settled a n (by rwa [due_of_free hl])

/-- A free stripe is in memory. -/
theorem mem_of_free (h : Inv S v) (hl : v.locks (S.cfg.getLock a) = .free l) :
    v.mem a = v.cur S a :=
  h.mem a (quiet_of_free hl)

end Inv

end View

end TinyStm
