import TinyStm.Result.Exclusive

/-!
# The irrevocability token

At most one descriptor holds the token, `_tinystm.irrevocable` says whether one does, and the
attempt of the holder is live. This holds unless a transaction is given up with the token, asks for
irrevocability once more while it holds the token, or returns a token that it does not hold. The
three exceptions are steps that the code allows: a rollback that is not followed by a new attempt
keeps the descriptor's level, a second request stores the level again, and a commit clears a token
that belongs to another transaction. The condition excludes them one by one, on the state before
each step.
-/

namespace TinyStm.Quiesce

variable {Tid Addr : Type} [DecidableEq Tid] {cfg : Config} {p q : Tid} {s s' : State Tid Addr}

/-- The descriptor holds the token, and is not about to return it. -/
def Tx.Holds (tx : Tx) : Prop := 2 ≤ tx.mode ∧ tx.point ≠ .releasing

/-- The attempt is live: it is active, or it has aborted and restarts. -/
def Tx.Live (tx : Tx) : Prop :=
  tx.point = .running ∧ tx.status.isActive = true ∨ tx.point = .aborting ∨ tx.point = .preparing

instance (tx : Tx) : Decidable tx.Live := inferInstanceAs (Decidable (_ ∨ _))

/-- At most one descriptor holds the token, the shared word says whether one does, and its attempt is
live. -/
structure State.Token (s : State Tid Addr) : Prop where
  unique : ∀ p q, (s.txs p).Holds → (s.txs q).Holds → p = q
  word : s.irrevocable ≠ 0 ↔ ∃ p, (s.txs p).Holds
  live : ∀ p, (s.txs p).Holds → (s.txs p).Live

omit [DecidableEq Tid] in
/-- Nobody holds the token. -/
theorem State.Token.free (h : s.irrevocable = 0) (hnone : ∀ p, ¬ (s.txs p).Holds) : s.Token where
  unique p _ hp _ := (hnone p hp).elim
  word := ⟨fun h' => (h' h).elim, fun ⟨p, hp⟩ => (hnone p hp).elim⟩
  live p hp := (hnone p hp).elim

omit [DecidableEq Tid] in
/-- Only `p` holds the token. -/
theorem State.Token.held (h : s.irrevocable ≠ 0) (hp : (s.txs p).Holds) (hlive : (s.txs p).Live)
    (hother : ∀ q ≠ p, ¬ (s.txs q).Holds) : s.Token where
  unique q r hq hr :=
    (not_imp_comm.1 (hother q) (not_not.2 hq)).trans (not_imp_comm.1 (hother r) (not_not.2 hr)).symm
  word := ⟨fun _ => ⟨p, hp⟩, fun _ => h⟩
  live q hq := by
    obtain rfl : q = p := not_imp_comm.1 (hother q) (not_not.2 hq)
    exact hlive

omit [DecidableEq Tid] in
/-- A thread that does not hold the token while the word is 0. -/
theorem State.Token.not_holds (h : s.Token) (hword : s.irrevocable = 0) (q : Tid) :
    ¬ (s.txs q).Holds := fun hq => h.word.2 ⟨q, hq⟩ hword

/-- A thread changes its descriptor: it holds the token as before, and its attempt is live. -/
theorem State.Token.change (h : s.Token) {tx : Tx} (htxs : s'.txs = Function.update s.txs p tx)
    (hword : s'.irrevocable = s.irrevocable) (hholds : tx.Holds ↔ (s.txs p).Holds)
    (hlive : (s.txs p).Holds → (s.txs p).Live → tx.Live) : s'.Token := by
  have hself : s'.txs p = tx := htxs ▸ Function.update_self ..
  have hother {q : Tid} (hq : q ≠ p) : s'.txs q = s.txs q := htxs ▸ Function.update_of_ne hq ..
  have hiff (q : Tid) : (s'.txs q).Holds ↔ (s.txs q).Holds := by
    by_cases hq : q = p
    · rw [hq, hself, hholds]
    · rw [hother hq]
  refine ⟨fun q r hq hr => ?_, ?_, fun q hq => ?_⟩
  · exact h.unique q r ((hiff q).1 hq) ((hiff r).1 hr)
  · rw [hword, h.word]
    exact exists_congr fun q => (hiff q).symm
  · replace hq := (hiff q).1 hq
    by_cases hqp : q = p
    · subst hqp
      rw [hself]
      exact hlive hq (h.live q hq)
    · rw [hother hqp]
      exact h.live q hq

omit [DecidableEq Tid] in
/-- The word, the descriptors: what the token is about. -/
theorem State.Token.congr (h : s.Token) (htxs : s'.txs = s.txs)
    (hword : s'.irrevocable = s.irrevocable) : s'.Token where
  unique p q := htxs ▸ h.unique p q
  word := by rw [htxs, hword, h.word]
  live p := htxs ▸ h.live p

/-- A move does not take or return the token. -/
theorem Move.holds {tx tx' : Tx} (h : Move tx tx') (hlive : tx.Holds → tx.Live) :
    (tx'.Holds ↔ tx.Holds) ∧ (tx.Holds → tx'.Live) := by
  have hout (h : tx.point = .outside) : ¬ tx.Holds := fun hh => by
    rcases hlive hh with ⟨h', -⟩ | h' | h' <;> cases h.symm.trans h'
  have hmode (h : tx.mode ≤ 1) : ¬ tx.Holds := fun hh => absurd hh.1 (by omega)
  have hnone {tx tx' : Tx} (h : ¬ tx.Holds) (h' : ¬ tx'.Holds) :
      (tx'.Holds ↔ tx.Holds) ∧ (tx.Holds → tx'.Live) := ⟨iff_of_false h' h, fun hh => (h hh).elim⟩
  cases h with
  | attr b h => exact ⟨.rfl, fun hh => (hout h hh).elim⟩
  | prepare h =>
    refine ⟨and_congr_right fun _ => ⟨fun _ h' => ?_, fun _ => nofun⟩, fun _ => .inr (.inr rfl)⟩
    rcases h with h | h <;> cases h.symm.trans h'
  | gc | freed => exact ⟨.rfl, hlive⟩
  | spin h _ => exact hnone (hmode h.le) fun hh => absurd (h ▸ hh.1) (by decide)
  | activate h | irrevocable h | idle h => exact ⟨.rfl, fun _ => .inr (.inr h)⟩
  | abort h =>
    refine ⟨and_congr_right fun _ => ⟨fun _ h' => ?_, fun _ => nofun⟩, fun _ => .inr (.inl rfl)⟩
    rcases h with h | h <;> cases h.symm.trans h'
  | first serial h => exact hnone (hmode (by omega)) fun hh => nomatch hh.1
  | grant _ h =>
    have hiff : 2 ≤ tx.mode + 1 ↔ 2 ≤ tx.mode := by omega
    exact ⟨and_congr_left fun _ => hiff, hlive⟩
  | forget h => exact hnone (fun hh => hh.2 h) fun hh => nomatch hh.1
  | commit h => exact hnone (hmode (by omega)) fun hh => absurd (h ▸ hh.1) (by decide)
  | init h => exact hnone (hout h) fun hh => absurd hh.1 (by decide)

/-- A step keeps the token, if no transaction loses it or returns one that it does not hold. -/
theorem State.Token.step (h : s.Token) (hact : Act cfg p s s') (hmis : s'.misreleased = false)
    (hleak : s'.leaked = false) : s'.Token := by
  cases hact with
  | takeToken hword hmode hpoint _ =>
    refine .held (p := p) nofun ?_ ?_ fun q hq => ?_
    · rw [setTx_txs_self, Tx.Holds, hmode]
      refine ⟨le_rfl, ?_⟩
      rcases hpoint with hpoint | ⟨hpoint, -⟩ <;> simp [hpoint]
    · rw [setTx_txs_self, Tx.Live]
      rcases hpoint with hpoint | ⟨hpoint, hactive⟩ <;> simp [*]
    · rw [setTx_txs_of_ne hq]
      exact h.not_holds hword q
  | returnToken _ _ hmode hpoint =>
    refine .free rfl fun q hq => ?_
    have hholds : (s.txs p).Holds := by
      refine ⟨?_, by rcases hpoint with h | h <;> rw [h] <;> nofun⟩
      exact not_lt.1 (of_decide_eq_false (Bool.or_eq_false_iff.1 hmis).2)
    by_cases hqp : q = p
    · rw [hqp, setTx_txs_self] at hq
      exact hq.2 rfl
    · rw [setTx_txs_of_ne hqp] at hq
      exact hqp (h.unique q p hq hholds)
  | request serial _ _ =>
    have hmode : (s.txs p).mode < 2 :=
      not_le.1 (of_decide_eq_false (Bool.or_eq_false_iff.1 hleak).2)
    refine h.change rfl rfl (iff_of_false nofun fun hh => hmode.not_ge hh.1) fun hh => ?_
    exact (hmode.not_ge hh.1).elim
  | giveUp _ _ _ =>
    have hmode : (s.txs p).mode < 2 :=
      not_le.1 (of_decide_eq_false (Bool.or_eq_false_iff.1 hleak).2)
    refine h.change rfl rfl (iff_of_false (fun hh => hmode.not_ge hh.1) fun hh => hmode.not_ge hh.1)
      fun hh => ?_
    exact (hmode.not_ge hh.1).elim
  | grantSerial _ _ hmode _ _ =>
    refine h.change rfl rfl (and_congr_left fun _ => ?_) fun _ hlive => hlive
    show 2 ≤ (s.txs p).mode + 1 ↔ _
    omega
  | pass hpoint hactive _ _ =>
    refine h.change rfl rfl (and_congr_right fun _ => ?_) fun _ _ => .inl ⟨rfl, hactive⟩
    exact iff_of_true nofun (by rw [hpoint]; nofun)
  | restore hpoint hactive _ =>
    refine h.change rfl rfl (and_congr_right fun _ => ?_) fun _ _ => .inl ⟨rfl, hactive⟩
    exact iff_of_true nofun (by rw [hpoint]; nofun)
  | move hmove _ _ _ =>
    obtain ⟨hholds, hlive⟩ := hmove.holds (h.live p)
    exact h.change rfl rfl hholds fun hh _ => hlive hh
  | start _ _ | epoch _ _ => exact h.change rfl rfl .rfl fun _ hlive => hlive
  | _ => exact h.congr rfl rfl

/-- The token is held by at most one transaction, which is live, and the shared word says so, in every
run in which no transaction loses the token or returns one that it does not hold. -/
theorem token_held {T : Pool (State Tid Addr) Tid}
    (h : QRun cfg (fun s => s.misreleased = false ∧ s.leaked = false) T) : T.st.Token :=
  (h.preserves (fun _ h => h.1) (J := State.Token) (.free rfl fun _ h => nomatch h.1)
    fun _ _ _ _ hact ho hJ => hJ.step hact ho.1 ho.2).2

/-- A transaction that is not retried becomes irrevocable. -/
def irrevocably : List (Pool.Label (Fin 2) (Cmd Unit)) :=
  Pool.Label.calls 20 [(0, .initThread), (0, .start true),
    (0, .setIrrevocable false true false .plain)]

/-- It is not valid. -/
def losing : List (Pool.Label (Fin 2) (Cmd Unit)) :=
  Pool.Label.calls 20 [(0, .initThread), (0, .start true),
    (0, .setIrrevocable false false false .plain)]

set_option maxRecDepth 10000 in
/-- A transaction that is not retried keeps the token when its validation fails. -/
theorem token_lost : ∃ T : Pool (State (Fin 2) Unit) (Fin 2),
    QRun .small (fun _ => True) T ∧ ¬ T.st.Token := by
  refine ⟨after .small losing, Pool.FollowsIn.reaches (by decide), fun h => ?_⟩
  have hlive := h.live 0 ⟨by decide, by decide⟩
  revert hlive
  decide

set_option maxRecDepth 10000 in
/-- It has it while it runs. -/
theorem token_held_irrevocably :
    ((after .small irrevocably).st.txs 0).mode = 3 ∧ (after .small irrevocably).st.Token :=
  ⟨by decide, token_held
    (show QRun .small _ _ from Pool.FollowsIn.reaches (by decide))⟩

end TinyStm.Quiesce
