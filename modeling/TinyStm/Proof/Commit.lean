import TinyStm.Proof.Store

/-!
# Commits

What the designs' commits share from the moment when all locks are held: the timestamp is drawn, the
read set is validated at the time before it, the commit is decided, and then the entries are written
back and their locks are dropped with the new timestamp. A validation that succeeds at that time
makes the snapshot one of the time before the timestamp, so that the transaction can be put into the
serial order at its timestamp. The token check comes first: a transaction that finds the token taken
does not draw a timestamp.
-/

namespace TinyStm

namespace View

variable {Tid Addr Lock : Type} {w : ℕ} [DecidableEq Addr] {S : Setting Tid Addr Lock w}
  {v v' : View Tid Addr Lock w} {p : Tid} {tx : StmTx Addr Lock w} {m : Mem Addr w} {a : Addr}
  {n t : ℕ} {x : BitVec w}

theorem FixedAt.of_phase (h : v.FixedAt S p n a x) (hl : v'.locks = v.locks)
    (hc : v'.commits = v.commits) (hn : v.clock ≤ v'.clock)
    (hp : ∀ q, q ≠ p → v'.phase q = v.phase q) : v'.FixedAt S p n a x where
  le := h.le.trans hn
  eq := by
    rw [memAt, hc]
    exact h.eq
  late q t hq ht hh := by
    rw [hp q hq] at ht
    rw [Holds, hl] at hh
    exact h.late q t hq ht hh

/-- The clock and the phase of the thread itself do not matter for what it has loaded. -/
theorem Snap.of_phase (hv : v.Inv S) (h : v.Snap S p tx m) (hl : v'.locks = v.locks)
    (hs : v'.saved = v.saved) (hc : v'.commits = v.commits) (hn : v.clock ≤ v'.clock)
    (hi : v'.irr = v.irr) (hp : ∀ q, q ≠ p → v'.phase q = v.phase q) : v'.Snap S p tx m := by
  have hholds : ∀ q ℓ, v'.Holds q ℓ ↔ v.Holds q ℓ := fun q ℓ => by rw [Holds, Holds, hl]
  have hcur : v'.cur S = v.cur S := hv.cur_of_clock_le hc hn
  refine ⟨h.cons, fun hb a ha => ?_, h.start_le, h.end_le.trans hn⟩
  have hown : v'.Own S p tx a ↔ v.Own S p tx a := and_congr_right fun _ => hholds _ _
  rw [Good, hown]
  rcases h.good hb a ha with ⟨ho, hx, hstr⟩ | ⟨ho, hi3, hsafe⟩ | ⟨ho, hi3, hf, hr⟩
  · refine .inl ⟨ho, hcur ▸ hx, fun hS => ?_⟩
    rw [lastTs_congr (v := v) (congrFun hl _) fun _ _ => congrFun hs _]
    exact hstr hS
  · refine .inr (.inl ⟨ho, hi3, hsafe.hint, hi ▸ hsafe.irr, hcur ▸ hsafe.eq, fun q hq hh => ?_⟩)
    rw [hp q hq]
    exact hsafe.early q hq ((hholds q _).1 hh)
  · exact .inr (.inr ⟨ho, hi3, hf.of_phase hl hc hn hp, hr⟩)

/-- The committed words of the thread's stripes after its commit. -/
theorem Inv.cur_decide [DecidableEq Tid] (hv : v.Inv S) (hp : v.phase p = .ticket t)
    {tr : Trace Addr w} (hw : ∀ a ∈ tr.writes, v.Holds p (S.cfg.getLock a))
    (hc : v'.commits = ⟨p, t, true, tr⟩ :: v.commits) (hn : v'.clock = v.clock)
    (hh : v.Holds p (S.cfg.getLock a)) : v'.cur S a = tr.apply (v.cur S) a := by
  have htc := (hv.ticket p t hp).2.1
  have hni : ∀ t', v.phase p ≠ .installing t' := fun t' ht' => by
    rw [hp] at ht'
    cases ht'
  rw [cur, memAt, hc, hn, hv.memAt_decide hp hw]
  split
  case isTrue ha =>
    obtain ⟨i, hi⟩ := hh
    have hlate := hv.late _ p i t hi (.inl hp)
    exact Trace.apply_congr (hv.settled_of_holds ⟨i, hi⟩ hni (by omega))
  case isFalse ha =>
    have ha' : a ∉ tr.writes := fun h => ha ⟨h, htc⟩
    exact (Trace.apply_of_not_mem_writes ha').symm

/-- Everything an irrevocable transaction has loaded is the memory before the timestamp it draws. -/
theorem Snap.ready_of_irrevocable (hv : v.Inv S) (h : v.Snap S p tx m) (hb : ¬ Blind S tx)
    (hi : tx.irrevocable = 3) : Ready S p tx m v.clock v := by
  intro a ha
  obtain ⟨hx, hearly⟩ := h.cur_of_irrevocable hb hi ha
  exact ⟨le_refl _, (congrFun (hv.memAt_of_clock_le (le_refl _)) a).trans hx, fun q t hq ht hh =>
    (hearly q hq hh (by rw [ht]; trivial)).elim⟩

/-! ## Installation -/

/-- A thread writes back: the locks that the entries `es` drop are held, and the words of their
stripes are in memory but for those that the entries `ds` store (`put` is the word that a store
leaves). -/
structure Install (S : Setting Tid Addr Lock w) (p : Tid) (drop : WEntry Addr Lock w → Prop)
    (put : WEntry Addr Lock w → BitVec w → BitVec w) (es ds : List (WEntry Addr Lock w))
    (v : View Tid Addr Lock w) : Prop where
  drops : v.Drops p drop es
  last : es.Pairwise fun e f => drop e → f.lock ≠ e.lock
  sub : ∀ e ∈ ds, e ∈ es
  lock : ∀ e ∈ ds, e.lock = S.cfg.getLock e.addr
  held : ∀ e ∈ ds, v.Holds p e.lock
  addr : ds.Pairwise fun e f => e.addr ≠ f.addr
  value : ∀ e ∈ ds, e.mask ≠ 0#w → put e (v.mem e.addr) = v.cur S e.addr
  dirty : v.Dirty S p ds

variable {drop : WEntry Addr Lock w → Prop} {put : WEntry Addr Lock w → BitVec w → BitVec w}
  {es ds : List (WEntry Addr Lock w)} {e : WEntry Addr Lock w}

theorem Install.congr (hs : SameHeld S p v v') (h : Install S p drop put es ds v) :
    Install S p drop put es ds v' where
  drops := h.drops.congr hs
  last := h.last
  sub := h.sub
  lock := h.lock
  held e he := hs.holds_iff.2 (h.held e he)
  addr := h.addr
  value e he hm := by
    have hh := h.lock e he ▸ h.held e he
    rw [hs.mem _ hh, hs.cur _ hh]
    exact h.value e he hm
  dirty := h.dirty.congr hs

/-- An entry that stores nothing. -/
theorem Install.skip (h : Install S p drop put es (e :: ds) v) (hm : e.mask = 0#w) :
    Install S p drop put es ds v where
  drops := h.drops
  last := h.last
  sub f hf := h.sub f (.tail _ hf)
  lock f hf := h.lock f (.tail _ hf)
  held f hf := h.held f (.tail _ hf)
  addr := (List.pairwise_cons.1 h.addr).2
  value f hf := h.value f (.tail _ hf)
  dirty a ha := (h.dirty a ha).imp id fun ⟨f, hf, hfa, hfm⟩ => by
    rcases List.mem_cons.1 hf with rfl | hf
    · exact (hfm hm).elim
    · exact ⟨f, hf, hfa, hfm⟩

/-- The word of an entry is stored. -/
theorem Install.store (h : Install S p drop put es (e :: ds) v) (hx : x = v.cur S e.addr) :
    Install S p drop put es ds { v with mem := Function.update v.mem e.addr x } where
  drops := ⟨h.drops.holds, h.drops.distinct⟩
  last := h.last
  sub f hf := h.sub f (.tail _ hf)
  lock f hf := h.lock f (.tail _ hf)
  held f hf := h.held f (.tail _ hf)
  addr := (List.pairwise_cons.1 h.addr).2
  value f hf hm := by
    have hne := (List.pairwise_cons.1 h.addr).1 f hf
    change put f (Function.update v.mem e.addr x f.addr) = v.cur S f.addr
    rw [Function.update_of_ne hne.symm]
    exact h.value f (.tail _ hf) hm
  dirty a ha := by
    change Function.update v.mem e.addr x a = v.cur S a ∨ _
    by_cases hae : a = e.addr
    · subst hae
      rw [Function.update_self]
      exact .inl hx
    · rw [Function.update_of_ne hae]
      refine (h.dirty a ha).imp id fun ⟨f, hf, hfa, hfm⟩ => ?_
      rcases List.mem_cons.1 hf with rfl | hf
      · exact (hae hfa.symm).elim
      · exact ⟨f, hf, hfa, hfm⟩

/-- An entry that drops no lock. -/
theorem Install.keep (h : Install S p drop put (e :: es) ds v) (hd : ¬ drop e)
    (hsub : ∀ f ∈ ds, f ∈ es) : Install S p drop put es ds v where
  drops := h.drops.skip hd
  last := (List.pairwise_cons.1 h.last).2
  sub := hsub
  lock := h.lock
  held := h.held
  addr := h.addr
  value := h.value
  dirty := h.dirty

/-- The lock of an entry is dropped. -/
theorem Install.release [DecidableEq Lock] {l : ℕ} (h : Install S p drop put (e :: es) ds v)
    (hd : drop e) (hsub : ∀ f ∈ ds, f ∈ es) :
    Install S p drop put es ds { v with locks := Function.update v.locks e.lock (.free l) } := by
  have hh : v.Holds p e.lock := (h.drops.holds _).2 ⟨e, .head _, hd, rfl⟩
  exact {
    drops := h.drops.release hd
    last := (List.pairwise_cons.1 h.last).2
    sub := hsub
    lock := h.lock
    held := fun f hf => (holds_release hh _).2
      ⟨h.held f hf, (List.pairwise_cons.1 h.last).1 f (hsub f hf) hd⟩
    addr := h.addr
    value := h.value
    dirty := fun a ha => h.dirty a ((holds_release hh _).1 ha).1 }

end View

section
variable {Tid Addr Lock : Type} {w : ℕ} [DecidableEq Addr]

/-- A thread writes back. -/
def install (S : Setting Tid Addr Lock w) (p : Tid) (drop : WEntry Addr Lock w → Prop)
    (put : WEntry Addr Lock w → BitVec w → BitVec w) (es ds : List (WEntry Addr Lock w)) :
    VAsn S p :=
  heldAsn S p (View.Install S p drop put es ds) fun _ _ => View.Install.congr

/-- All that the transaction has loaded is the memory as of `n`, for good. -/
def ready (S : Setting Tid Addr Lock w) (p : Tid) (tx : StmTx Addr Lock w) (m : Mem Addr w)
    (n : ℕ) : VAsn S p where
  holds v := View.Ready S.toPremises p tx m n v
  stable _ hq _ _ _ _ hg h := h.stable hq hg

end

variable {Tid Addr Lock : Type} {w : ℕ} [DecidableEq Tid] [DecidableEq Addr] [DecidableEq Lock]
  {S : Setting Tid Addr Lock w} {p : Tid} {tx : StmTx Addr Lock w} {m : Mem Addr w} {α : Type}
  {Q : α → Asn S p} {J : Asn S p} {drop : WEntry Addr Lock w → Prop}
  {put : WEntry Addr Lock w → BitVec w → BitVec w} {es ds : List (WEntry Addr Lock w)}
  {e : WEntry Addr Lock w} {t : ℕ} {x : BitVec w}

omit [DecidableEq Tid] [DecidableEq Lock] in
/-- The word of an entry is written back. -/
theorem storeWord_install {k : Unit → M Tid Addr Lock w α} (hph : tx.phase = .installing t)
    {Φ : VAsn S p} (hΦ : ∀ v, Linked S p tx v → Φ v →
      View.Install S p drop put es (e :: ds) v ∧ x = v.cur S e.addr)
    (hk : Triple (protocol S) p (At tx (install S p drop put es ds)) (k ()) Q J) :
    Triple (protocol S) p (At tx Φ) (storeWord e.addr x >>= k) Q J := by
  refine .storeWord (fun v hl h => ?_) hk
  obtain ⟨hin, hx⟩ := hΦ v hl h
  have hh : v.Holds p (S.cfg.getLock e.addr) := hin.lock e (.head _) ▸ hin.held e (.head _)
  exact ⟨hh, fun hq => ((View.quiet_of_owned hh).1 hq).2 t (hl.phase.trans hph), hin.store hx⟩

omit [DecidableEq Tid] in
/-- The lock of an entry is dropped: the words of its stripe are in memory. -/
theorem storeLock_install {k : Unit → M Tid Addr Lock w α} (hph : tx.phase = .installing t)
    (hd : drop e) (hsub : ∀ f ∈ ds, f ∈ es)
    (hk : Triple (protocol S) p (At tx (install S p drop put es ds)) (k ()) Q J) :
    Triple (protocol S) p (At tx (install S p drop put (e :: es) ds))
      (storeLock e.lock (lockSetTimestamp t) >>= k) Q J := by
  refine .storeLock (fun v hl hin => ?_) hk
  have hh : v.Holds p e.lock := (hin.drops.holds _).2 ⟨e, .head _, hd, rfl⟩
  obtain ⟨i, hi⟩ := hh
  have hvp : v.phase p = .installing t := hl.phase.trans hph
  have hlate := hl.inv.late _ p i t hi (.inr hvp)
  rw [View.lastTs, View.lastWord_of_owned hi] at hlate
  have hdue := View.due_of_installing hi hvp
  refine ⟨⟨i, hi⟩, fun a ha => ?_, ?_, ?_, View.stamp_le_of_lt hi (lt_lockSetTimestamp hlate),
    ⟨fun t' ht' => ?_, fun hni => (hni t hvp).elim⟩, hin.release hd hsub⟩
  · refine (hin.dirty a ⟨i, ha ▸ hi⟩).resolve_right ?_
    rintro ⟨f, hf, rfl, -⟩
    exact (List.pairwise_cons.1 hin.last).1 f (hsub f hf) hd ((hin.lock f hf).trans ha)
  · rw [hdue, lockGetTimestamp_lockSetTimestamp]
  · rw [lockGetTimestamp_lockSetTimestamp, ← hdue]
    exact hl.inv.due_le _
  · rw [Phase.installing.inj (ht'.symm.trans hvp)]

omit [DecidableEq Tid] [DecidableEq Lock] in
/-- Everything is written back. -/
theorem noLocks_of_install {s : State Tid Addr Lock w}
    (h : At tx (install S p drop put [] ds) s) : At tx (noLocks S p) s :=
  ⟨h.1, View.Drops.noLocks (View.Install.drops h.2) nofun⟩

/-! ## The end of a commit -/

/-- No abort callback requests irrevocability when the transaction, which has aborted `n` times, is given up
by its commit. -/
def Config.UnaskedCommit (cfg : Config Addr Lock) (n : ℕ) : Prop :=
  ∀ reason ∈ [Reason.storeLocked, .commitIrrevocable, .commitInvalid], cfg.Unasked n reason

/-- What a commit leaves: the transaction has been written back, or it has aborted and is not retried. -/
def afterCommit (S : Setting Tid Addr Lock w) (p : Tid) (tx : StmTx Addr Lock w) (ok : Bool) :
    Asn S p :=
  if ok then .ex fun tx' =>
    .pure (tx'.nesting = tx.nesting ∧ tx'.irrevocable = tx.irrevocable) ⊓ At tx' (noLocks S p)
  else .pure (tx.attr.noRetry = true ∧ tx.irrevocable = 0) ⊓
    idleWith S p 0 (S.cfg.UnaskedCommit tx.statAborts)

omit [DecidableEq Lock] in
/-- A transaction that is ready at its timestamp `t` is decided and written back. -/
theorem decide_spec {X : View Tid Addr Lock w → Prop}
    (hX : ∀ v v', View.SameHeld S p v v' → X v → X v')
    {inst : List (WEntry Addr Lock w) → ℕ → M Tid Addr Lock w Unit}
    (hw : ∀ v, X v → ∀ a ∈ tx.trace.writes, v.Holds p (S.cfg.getLock a))
    (hinst : Triple (protocol S) p
      (At { tx with phase := .installing t } (install S p drop put tx.wSet.entries ds))
      (inst tx.wSet.entries t)
      (fun _ => At { tx with phase := .installing t } (noLocks S p)) J)
    (hY : ∀ v v', v.Inv S → v.attr p = tx.attr → (∀ t, v.phase p ≠ .installing t) → X v → v'.locks = v.locks →
      v'.mem = v.mem → (∀ a, v.Holds p (S.cfg.getLock a) →
        v'.cur S a = tx.trace.apply (v.cur S) a) →
      View.Install S p drop put tx.wSet.entries ds v') :
    Triple (protocol S) p (At { tx with phase := .ticket t } (snap S p tx m ⊓ heldAsn S p X hX ⊓
        .imp S.hint (ready S p tx m (t - 1))))
      (recordUpdate p t >>= fun _ => inst tx.wSet.entries t >>= fun _ => pure true)
      (afterCommit S p tx) J := by
  refine .recordUpdate (Ψ := install S p drop put tx.wSet.entries ds) rfl
    (fun v hl h => ?_) (.bind hinst fun _ => .of_ret fun s _ h =>
      ⟨{ tx with phase := .installing t }, ⟨rfl, rfl⟩, h⟩)
  obtain ⟨⟨hsnap, hx⟩, hready⟩ := h
  have hvp : v.phase p = .ticket t := hl.phase
  refine ⟨hw v hx, fun hS => ⟨?_, fun a ha q t' hq ht' hh => ?_⟩,
    hY v _ hl.inv hl.attr (fun t' ht' => ?_) hx rfl rfl fun a ha =>
      hl.inv.cur_decide hvp (hw v hx) rfl rfl ha⟩
  · exact (hsnap.cons (View.not_blind_of_hint hS)).congr fun a ha => ((hready hS a ha).eq).symm
  · have := (hready hS a ha).late q t' hq ht' hh
    omega
  · rw [hvp] at ht'
    cases ht'

/-- The end of a commit of a transaction all of whose locks are held (`X`). -/
theorem commitWith_spec {X : View Tid Addr Lock w → Prop}
    {c : ∀ v v', View.SameHeld S p v v' → X v → X v'}
    {test : StmTx Addr Lock w → ℕ → REntry Lock → Bool}
    {inst : List (WEntry Addr Lock w) → ℕ → M Tid Addr Lock w Unit} (hact : TxLive S.toPremises tx)
    (hne : tx.wSet.entries ≠ []) (hundo : ∀ v, X v → v.Undo S p tx)
    (hw : ∀ v, X v → ∀ a ∈ tx.trace.writes, v.Holds p (S.cfg.getLock a))
    (hT : S.cfg.designOf tx.attr = .writeBackCtl → ∀ v, X v → ∀ ph i r, v.locks r.lock = .owned p i →
      test { tx with phase := ph } i r = true → v.lastTs r.lock = r.version)
    (hinst : ∀ t, Triple (protocol S) p
      (At { tx with phase := .installing t } (install S p drop put tx.wSet.entries ds))
      (inst tx.wSet.entries t)
      (fun _ => At { tx with phase := .installing t } (noLocks S p)) (boundary S p))
    (hY : ∀ v v', v.Inv S → v.attr p = tx.attr → (∀ t, v.phase p ≠ .installing t) → X v → v'.locks = v.locks →
      v'.mem = v.mem → (∀ a, v.Holds p (S.cfg.getLock a) →
        v'.cur S a = tx.trace.apply (v.cur S) a) →
      View.Install S p drop put tx.wSet.entries ds v') :
    Triple (protocol S) p (At tx (snap S p tx m ⊓ heldAsn S p X c))
      (commitWith S.cfg p (getTx p >>= fun tx => validateEntries p test tx.rSet) inst)
      (afterCommit S p tx) (boundary S p) := by
  have hirr : tx.irrevocable ≤ 3 := by
    rcases hact.irr with h | h <;> omega
  have hro : S.hint → tx.attr.readOnly = false := fun hh => by
    by_contra hro
    exact hne (hact.hint hh (by simpa using hro))
  refine .getTx ?_
  -- what follows once no irrevocable transaction has been seen
  have hdraw : ∀ ph, (ph = .checked ∨ ph = .running ∧
      (2 ≤ tx.irrevocable ∨ S.cfg.irrevocableEnabled = false)) →
      Triple (protocol S) p (At { tx with phase := ph } (snap S p tx m ⊓ heldAsn S p X c))
        (do
          let t ← fetchTimestamp p
          let ok ← commitValidate tx t (getTx p >>= fun tx => validateEntries p test tx.rSet)
          if ok then do
            recordUpdate p t
            inst tx.wSet.entries t
            pure true
          else do
            stmRollback S.cfg p .commitInvalid
            pure false)
        (afterCommit S p tx) (boundary S p) := by
    intro ph hph
    refine .fetchTimestamp (fun t => .pure (tx.end_ ≤ t - 1) ⊓ (snap S p tx m ⊓ heldAsn S p X c ⊓
      clockGe S p t ⊓ .imp (S.hint ∧ (tx.irrevocable = 3 ∨ tx.start = t - 1))
        (ready S p tx m (t - 1)))) hph
      (fun v hl h => ?_) fun t => .fact (fun v _ h => h.1) fun hend => ?_
    · have hother : ∀ q, q ≠ p →
          Function.update v.phase p (.ticket (v.clock + 1)) q = v.phase q :=
        fun q hq => Function.update_of_ne hq _ _
      refine ⟨h.1.end_le, ⟨⟨h.1.of_phase hl.inv rfl rfl rfl (Nat.le_succ _) rfl hother,
        c v _ (.self hl.inv rfl rfl rfl rfl (Nat.le_succ _)) h.2⟩, le_refl _⟩, fun hr a ha => ?_⟩
      have hb : ¬ View.Blind S tx := View.not_blind_of_hint hr.1
      have hready : View.Ready S p tx m v.clock v := by
        by_cases hi3 : tx.irrevocable = 3
        · exact h.1.ready_of_irrevocable hl.inv hb hi3
        · have hs : tx.start = v.clock := hr.2.resolve_left hi3
          have := h.1.start_le
          have := h.1.end_le
          refine h.1.ready_of_end hl.inv (fun t ht => ?_) (by omega) hb hi3
          rw [hl.phase] at ht
          rcases hph with rfl | ⟨rfl, -⟩ <;> cases ht
      exact (hready a ha).of_phase rfl rfl (Nat.le_succ _) hother
    have hdec := decide_spec (m := m) c hw (hinst t) hY
    by_cases hskip : tx.irrevocable ≠ 0 ∨ tx.start = t - 1
    · -- the validation is skipped
      rw [commitValidate, if_pos hskip]
      refine hdec.weaken fun v _ h => ⟨h.2.1.1, fun hh => h.2.2 ⟨hh, ?_⟩⟩
      exact hskip.imp hact.irr.resolve_left id
    · rw [commitValidate, if_neg hskip]
      have hi0 : tx.irrevocable = 0 := by
        by_contra hi
        exact hskip (.inl hi)
      refine .bind (R := fun ok => At { tx with phase := .ticket t } (snap S p tx m ⊓
        heldAsn S p X c ⊓ .imp (ok = true) (.imp S.hint (ready S p tx m (t - 1))))) (.getTx ?_)
        fun ok => ?_
      · refine .weaken (Ψ := snap S p tx m ⊓ heldAsn S p X c ⊓ clockGe S p t) ?_ fun v _ h => h.2.1
        refine (validateEntries_spec (fun r => .imp (S.hint ∧ r.version ≤ tx.end_)
          (extended S p tx m (t - 1) r.lock)) (fun hd v hl h i r hv ht => ⟨?_, fun t' ht' => ?_⟩) _
          fun r _ v hl h hf hr => ?_).post (fun ok s hs h => ?_) fun _ _ h => h
        · exact hT hd v h.1.2 _ i r hv ht
        · rw [hl.phase] at ht'
          cases ht'
        · have htc : t ≤ v.clock := h.2
          exact h.1.1.extended hl.inv (View.not_blind_of_hint hr.1) (by omega) hr.2 hend (by omega)
            hf
        · obtain ⟨htx, ⟨⟨hsnap, hx⟩, hc⟩, hK⟩ := h
          refine ⟨htx, ⟨hsnap, hx⟩, fun hok hh => ?_⟩
          have hvp : s.view.phase p = .ticket t := congrArg StmTx.phase htx
          have ht1 := (hs.inv.ticket p t hvp).1
          refine hsnap.ready hs.inv (n := t - 1) ?_ (by omega) (hro hh) fun r hr hrv => hK hok r hr ⟨hh, hrv⟩
          rw [hvp, Nat.sub_add_cancel ht1]
      · cases ok with
        | true => exact hdec.weaken fun v _ h => ⟨h.1, h.2 rfl⟩
        | false =>
          refine .weaken (Ψ := undo S p { tx with phase := .ticket t }) (.bind
            (stmRollback_spec ?_ (fun t' ht' => ?_) ?_ _) fun _ => .of_ret fun s _ h => ?_)
            fun v _ h => hundo v h.1.2
          · exact hact.attr
          · cases ht'
          · exact hirr
          · have hidle := h.2
            rw [hi0] at hidle
            exact ⟨⟨h.1.noRetry (by decide), hi0⟩, idleWith_mono hidle fun hu => hu _ (by simp)⟩
  unfold checkToken
  by_cases hi : S.cfg.irrevocableEnabled = true ∧ tx.irrevocable = 0
  · rw [if_pos hi]
    refine .checkIrrevocable (Ψ := snap S p tx m ⊓ heldAsn S p X c) hact.phase
      (fun v hl h => ⟨?_, ?_⟩) ?_ fun n hn => ?_
    · exact h.1.of_phase hl.inv rfl rfl rfl le_rfl rfl fun q hq => Function.update_of_ne hq _ _
    · exact c v _ (.self hl.inv rfl rfl rfl rfl le_rfl) h.2
    · exact hdraw .checked (.inl rfl)
    · rw [if_pos hn]
      refine .weaken (Ψ := undo S p tx) (.bind (stmRollback_spec hact.attr (fun t ht => ?_)
        hirr _) fun _ => .of_ret fun s _ h => ?_) fun v _ h => hundo v h.2
      · rw [hact.phase] at ht
        cases ht
      · have hidle := h.2
        rw [hi.2] at hidle
        exact ⟨⟨h.1.noRetry (by decide), hi.2⟩, idleWith_mono hidle fun hu => hu _ (by simp)⟩
  · rw [if_neg hi]
    refine .fact (φ := 2 ≤ tx.irrevocable ∨ S.cfg.irrevocableEnabled = false) (fun v hl _ => ?_)
      fun h2 => ?_
    · have := hact.irr
      cases he : S.cfg.irrevocableEnabled with
      | false => exact .inr rfl
      | true => exact .inl (by simp only [he, true_and] at hi; omega)
    · have htx : { tx with phase := Phase.running } = tx := by rw [← hact.phase]
      have := hdraw .running (.inr ⟨rfl, h2⟩)
      rw [htx] at this
      exact this

end TinyStm
