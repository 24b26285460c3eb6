import TinyStm.Model.Stm

/-!
# What a thread sees of the others

The part of the state that the correctness of one thread depends on: the shared memory and, of the
other descriptors, how far their commits are, whether they are irrevocable and which design they
use. A word of the lock
array has a *last word*, the version in it or under its owner, and the stripe it covers is *due* at
the timestamp of its last commit, which its owner may not have written back yet.
-/

namespace TinyStm

variable {Tid Addr Lock : Type} {w : ℕ}

/-- A commit in this phase has seen no irrevocable transaction (or is one). -/
def Phase.Passed : Phase → Prop
  | .running | .aborting => False
  | .checked | .ticket _ | .installing _ => True

/-- An attempt that is running has not drawn its timestamp. -/
@[simp] theorem Phase.passed_running : ¬ Phase.running.Passed := id

/-- A commit with a timestamp has passed the token check. -/
@[simp] theorem Phase.passed_ticket (t : ℕ) : (Phase.ticket t).Passed := trivial

/-- The shared memory and the progress of all threads. -/
structure View (Tid Addr Lock : Type) (w : ℕ) where
  mem : Mem Addr w
  locks : Lock → LockWord Tid
  saved : Lock → ℕ
  clock : ℕ
  token : ℕ
  commits : History Tid Addr w
  overrun : Bool
  phase : Tid → Phase
  irr : Tid → ℕ
  attr : Tid → Attr

/-- The view of a state. -/
def State.view (s : State Tid Addr Lock w) : View Tid Addr Lock w where
  mem := s.mem
  locks := s.locks
  saved := s.saved
  clock := s.clock
  token := s.irrevocable
  commits := s.commits
  overrun := s.overrun
  phase q := (s.txs q).phase
  irr q := (s.txs q).irrevocable
  attr q := (s.txs q).attr

/-- A lock word without an incarnation number: nothing is lost when only its timestamp is kept. -/
def Plain (l : ℕ) : Prop := lockSetTimestamp (lockGetTimestamp l) = l

/-- `LOCK_GET_TIMESTAMP` undoes `LOCK_SET_TIMESTAMP`. -/
@[simp] theorem lockGetTimestamp_lockSetTimestamp (t : ℕ) :
    lockGetTimestamp (lockSetTimestamp t) = t := by
  simp [lockGetTimestamp, lockSetTimestamp, Nat.shiftLeft_shiftRight]

/-- A commit stores a word without an incarnation number. -/
theorem plain_lockSetTimestamp (t : ℕ) : Plain (lockSetTimestamp t) := by
  rw [Plain, lockGetTimestamp_lockSetTimestamp]

/-- Where some transactions with the attributes `attrs` use write-through and others do not, those
that do not abort only while the locks that they own had words without an incarnation number. -/
def AbortsPlain (cfg : Config Addr Lock) (attrs : Attr → Prop) (obs : View Tid Addr Lock w → Prop) :
    Prop :=
  ∀ attr, attrs attr → cfg.designOf attr = .writeThrough → ∀ v, obs v → ∀ p, attrs (v.attr p) →
    cfg.designOf (v.attr p) ≠ .writeThrough → v.phase p = .aborting →
    ∀ ℓ i, v.locks ℓ = .owned p i → Plain (v.saved ℓ)

/-- Transactions of one design do not mix with others. -/
theorem AbortsPlain.of_one {cfg : Config Addr Lock} {attrs : Attr → Prop} {d : Design}
    {obs : View Tid Addr Lock w → Prop} (h : ∀ attr, attrs attr → cfg.designOf attr = d) :
    AbortsPlain cfg attrs obs := by
  intro attr ha hd v _ p hp hne
  exact (hne ((h _ hp).trans ((h attr ha).symm.trans hd))).elim

/-- What a group of results assumes: the build, the initial memory, and the calls considered. All
transactions have attributes that satisfy `attrs`, and the attributes tell which design a
transaction uses. Only with `tokens` do threads, or their abort callbacks, call
`stm_set_irrevocable`. With `strict`, no transaction loads from a stripe that it acquired at a
version newer than its snapshot; with `hint`, no transaction stores although it was started
read-only, and none gives back a token that it does not hold; all stores have masks that satisfy
`mask`, which is closed under union. -/
structure Premises (Addr Lock : Type) (w : ℕ) where
  cfg : Config Addr Lock
  attrs : Attr → Prop
  mem₀ : Mem Addr w
  tokens : Prop
  enabled_of_tokens : tokens → cfg.irrevocableEnabled = true
  tokens_of_requests : ∀ reason n, cfg.requests reason n = true → tokens
  strict : Prop
  hint : Prop
  mask : BitVec w → Prop
  mask_or : ∀ j k, mask j → mask k → mask (j ||| k)

/-- What is assumed of the runs as well: every state has a view that satisfies `obs`. -/
structure Setting (Tid Addr Lock : Type) (w : ℕ) extends Premises Addr Lock w where
  obs : View Tid Addr Lock w → Prop
  plain : AbortsPlain cfg attrs obs

instance : CoeOut (Setting Tid Addr Lock w) (Premises Addr Lock w) := ⟨Setting.toPremises⟩

namespace View

variable (v : View Tid Addr Lock w)

/-- Thread `p` owns the lock. -/
def Holds (p : Tid) (ℓ : Lock) : Prop := ∃ i, v.locks ℓ = .owned p i

/-- The last version in the lock: the one in it, or the one its owner overwrote. -/
def lastWord (ℓ : Lock) : ℕ :=
  match v.locks ℓ with
  | .free l => l
  | .owned _ _ => v.saved ℓ

/-- The timestamp of the last version in the lock. -/
def lastTs (ℓ : Lock) : ℕ := lockGetTimestamp (v.lastWord ℓ)

/-- The timestamp from which on the stripe's words have their current values. -/
def due (ℓ : Lock) : ℕ :=
  match v.locks ℓ with
  | .free l => lockGetTimestamp l
  | .owned q _ =>
    match v.phase q with
    | .installing t => t
    | _ => lockGetTimestamp (v.saved ℓ)

variable [DecidableEq Addr] (S : Premises Addr Lock w)

omit [DecidableEq Addr] in
/-- A number that never falls, and that grows whenever a write-through transaction acquires the lock
or releases it. -/
def stamp (ℓ : Lock) : ℕ :=
  match v.locks ℓ with
  | .free l => 2 * l
  | .owned q _ => 2 * v.saved ℓ + if S.cfg.designOf (v.attr q) = .writeThrough then 1 else 0

/-- The committed memory as of timestamp `n`. -/
def memAt (n : ℕ) : Mem Addr w := History.memAt S.mem₀ v.commits n

/-- The committed memory. -/
def cur : Mem Addr w := v.memAt S v.clock

omit [DecidableEq Addr] in
/-- The words of the stripe are in memory: it is free, or its owner writes back at commit only and
is not there yet. -/
def Quiet (ℓ : Lock) : Prop :=
  match v.locks ℓ with
  | .free _ => True
  | .owned q _ => S.cfg.designOf (v.attr q) ≠ .writeThrough ∧ ∀ t, v.phase q ≠ .installing t

variable {v} {S} {p q : Tid} {ℓ : Lock} {l i t n : ℕ} {a : Addr}

omit [DecidableEq Addr]

/-- The last word of a free lock is the word that is there. -/
theorem lastWord_of_free (h : v.locks ℓ = .free l) : v.lastWord ℓ = l := by
  simp [lastWord, h]

/-- The last word of an owned lock is the one that its owner has saved. -/
theorem lastWord_of_owned (h : v.locks ℓ = .owned p i) : v.lastWord ℓ = v.saved ℓ := by
  simp [lastWord, h]

/-- The last timestamp of a free lock. -/
theorem lastTs_of_free (h : v.locks ℓ = .free l) : v.lastTs ℓ = lockGetTimestamp l := by
  rw [lastTs, lastWord_of_free h]

/-- A free lock has the version that it is due. -/
theorem due_of_free (h : v.locks ℓ = .free l) : v.due ℓ = lockGetTimestamp l := by
  simp [due, h]

/-- A lock whose owner installs is due the timestamp of the commit. -/
theorem due_of_installing (h : v.locks ℓ = .owned p i) (hp : v.phase p = .installing t) :
    v.due ℓ = t := by
  simp [due, h, hp]

/-- A lock whose owner does not install is due its last timestamp. -/
theorem due_of_owned (h : v.locks ℓ = .owned p i) (hp : ∀ t, v.phase p ≠ .installing t) :
    v.due ℓ = v.lastTs ℓ := by
  rw [lastTs, lastWord_of_owned h]
  simp only [due, h]

/-- The stamp of a free lock. -/
theorem stamp_of_free (h : v.locks ℓ = .free l) : v.stamp S ℓ = 2 * l := by
  simp [stamp, h]

/-- The stamp of an owned lock: one more if its words may have changed. -/
theorem stamp_of_owned (h : v.locks ℓ = .owned p i) : v.stamp S ℓ =
    2 * v.saved ℓ + if S.cfg.designOf (v.attr p) = .writeThrough then 1 else 0 := by
  simp [stamp, h]

/-- A greater word than the one that the owner overwrote has a greater stamp. -/
theorem stamp_le_of_lt (h : v.locks ℓ = .owned p i) (hl : v.saved ℓ < l) : v.stamp S ℓ ≤ 2 * l := by
  rw [stamp_of_owned h]
  split <;> omega

/-- A lock has one owner. -/
theorem Holds.unique (h : v.Holds p ℓ) (h' : v.Holds q ℓ) : p = q := by
  obtain ⟨i, hi⟩ := h
  obtain ⟨j, hj⟩ := h'
  rw [hi] at hj
  injection hj

/-- Nobody holds a free lock. -/
theorem not_holds_of_free (h : v.locks ℓ = .free l) : ¬ v.Holds p ℓ := by
  rintro ⟨i, hi⟩
  rw [h] at hi
  cases hi

/-- The words of a free lock are not being changed. -/
theorem quiet_of_free (h : v.locks ℓ = .free l) : v.Quiet S ℓ := by
  simp [Quiet, h]

/-- The words of an owned lock are not being changed until the commit, unless its owner writes
through. -/
theorem quiet_of_owned (h : v.Holds p ℓ) :
    v.Quiet S ℓ ↔ S.cfg.designOf (v.attr p) ≠ .writeThrough ∧ ∀ t, v.phase p ≠ .installing t := by
  obtain ⟨i, hi⟩ := h
  simp [Quiet, hi]

end View

section
variable [DecidableEq Tid] {s : State Tid Addr Lock w} {p : Tid}
  {f : StmTx Addr Lock w → StmTx Addr Lock w}

/-- The descriptor after the change. -/
@[simp] theorem State.setTx_txs_self : (s.setTx p f).txs p = f (s.txs p) := by
  simp [State.setTx]

/-- The descriptors of the other threads. -/
theorem State.setTx_txs_of_ne {q : Tid} (h : q ≠ p) : (s.setTx p f).txs q = s.txs q := by
  simp [State.setTx, h]

/-- The view after a change of a descriptor. -/
theorem State.view_setTx : (s.setTx p f).view =
    { s.view with phase := Function.update s.view.phase p (f (s.txs p)).phase
                  irr := Function.update s.view.irr p (f (s.txs p)).irrevocable
                  attr := Function.update s.view.attr p (f (s.txs p)).attr } := by
  simp only [State.view, View.mk.injEq]
  refine ⟨rfl, rfl, rfl, rfl, rfl, rfl, rfl, funext fun q => ?_, funext fun q => ?_,
    funext fun q => ?_⟩
  all_goals
    by_cases hq : q = p
    · subst hq; simp
    · simp [State.setTx_txs_of_ne hq, Function.update_of_ne hq]

/-- An update by the phase that is there. -/
theorem State.update_phase (s : State Tid Addr Lock w) :
    Function.update s.view.phase p (s.txs p).phase = s.view.phase :=
  Function.update_eq_self p _

/-- An update by the level that is there. -/
theorem State.update_irr (s : State Tid Addr Lock w) :
    Function.update s.view.irr p (s.txs p).irrevocable = s.view.irr :=
  Function.update_eq_self p _

/-- An update by the attributes that are there. -/
theorem State.update_attr (s : State Tid Addr Lock w) :
    Function.update s.view.attr p (s.txs p).attr = s.view.attr :=
  Function.update_eq_self p _

/-- Thread-local assignments are not seen by the others. -/
theorem State.view_setTx_eq (hph : (f (s.txs p)).phase = (s.txs p).phase)
    (hirr : (f (s.txs p)).irrevocable = (s.txs p).irrevocable)
    (hattr : (f (s.txs p)).attr = (s.txs p).attr) : (s.setTx p f).view = s.view := by
  rw [State.view_setTx, hph, hirr, hattr, s.update_phase, s.update_irr, s.update_attr]

/-- A change of the phase. -/
theorem State.view_setTx_phase (hirr : (f (s.txs p)).irrevocable = (s.txs p).irrevocable)
    (hattr : (f (s.txs p)).attr = (s.txs p).attr) : (s.setTx p f).view =
      { s.view with phase := Function.update s.view.phase p (f (s.txs p)).phase } := by
  rw [State.view_setTx, hirr, hattr, s.update_irr, s.update_attr]

/-- A change of the level of irrevocability. -/
theorem State.view_setTx_irr (hph : (f (s.txs p)).phase = (s.txs p).phase)
    (hattr : (f (s.txs p)).attr = (s.txs p).attr) : (s.setTx p f).view =
      { s.view with irr := Function.update s.view.irr p (f (s.txs p)).irrevocable } := by
  rw [State.view_setTx, hph, hattr, s.update_phase, s.update_attr]

/-- A change of the attributes. -/
theorem State.view_setTx_attr (hph : (f (s.txs p)).phase = (s.txs p).phase)
    (hirr : (f (s.txs p)).irrevocable = (s.txs p).irrevocable) : (s.setTx p f).view =
      { s.view with attr := Function.update s.view.attr p (f (s.txs p)).attr } := by
  rw [State.view_setTx, hph, hirr, s.update_phase, s.update_irr]

end

end TinyStm
