import TinyStm.Proof.Sees

/-!
# Where a loaded value comes from

Of the value that a load has recorded in the trace it is known that the thread owns the stripe of
the word, or that the transaction has stored to the word, or that the value has been the committed
one. A load does not change the trace before it records its value, so this can be said of the trace
at the start of the call.
-/

namespace TinyStm

variable {Tid Addr Lock : Type} {w : ℕ} [DecidableEq Addr]

/-- The trace of `p` is `tr`, or it has been emptied since. -/
def traceFrom (S : Setting Tid Addr Lock w) (p : Tid) (tr : Trace Addr w) : Asn S p where
  holds s := (s.txs p).trace = tr ∨ (s.txs p).trace = []
  stable _ hq _ _ _ _ hg h := by rwa [hg.1 p hq.symm]

/-- If a load of `a` has been recorded after the trace `tr`, it is known where its value comes from;
a transaction of an encounter-time design owns the stripe of a word that it has stored to. -/
def origin (S : Setting Tid Addr Lock w) (p : Tid) (tr : Trace Addr w) (a : Addr) : Asn S p where
  holds s := ∀ x, (s.txs p).trace = .load a x :: tr → s.view.Origin S p tr a x ∧
    (S.cfg.designOf (s.txs p).attr ≠ .writeBackCtl → a ∈ tr.writes → s.view.Holds p (S.cfg.getLock a))
  stable _ hq _ _ _ _ hg h x hx := by
    have htx := hg.1 p hq.symm
    obtain ⟨horigin, hwrites⟩ := h x (by rwa [← htx])
    refine ⟨horigin.stable hq hg.2, fun hd ha => (hg.2.holds_iff hq).2 (hwrites ?_ ha)⟩
    rwa [← htx]

variable {S : Setting Tid Addr Lock w} {p : Tid} {tr : Trace Addr w} {a : Addr} {x : BitVec w}
  {s : State Tid Addr Lock w}

/-- Nothing has been recorded yet. -/
theorem origin_of_traceFrom (h : traceFrom S p tr s) : origin S p tr a s := by
  intro x hx
  rcases h with h | h
  · exact absurd (congrArg List.length (h.symm.trans hx)) (by simp)
  · cases h.symm.trans hx

variable [DecidableEq Tid] [DecidableEq Lock]

/-- The record of a load. -/
theorem recordLoad_origin {J : Asn S p} :
    Triple (protocol S) p ((idleAsn S p ⊔ loaded S p a x) ⊓ traceFrom S p tr)
      (record p (.load a x)) (fun _ => boundary S p ⊓ origin S p tr a) J := by
  refine .pre (.of_sup (.of_ex fun tx => ?_) (.of_ex fun tx => .of_ex fun m => ?_))
    (P := (.ex fun tx => .pure (TxIdle tx ∧ (tx.trace = tr ∨ tx.trace = [])) ⊓ At tx (noLocks S p)) ⊔
      .ex fun tx => .ex fun m => .pure (TxActive S.toPremises tx ∧ (tx.trace = tr ∨ tx.trace = [])) ⊓
        At tx (live S p tx m ⊓ value S p tx a x)) fun s _ h => ?_
  · refine .of_fact (fun s _ h => h.1) fun ⟨hidle, htr⟩ => ?_
    refine .pre ((recordIdle_spec (Φ := noLocks S p) hidle _).post (fun _ s _ h => ?_)
      fun _ _ h => h) fun s _ h => h.2
    rw [← h.1] at htr
    exact ⟨.inl ⟨tx, hidle, h⟩, origin_of_traceFrom htr⟩
  · refine .of_fact (fun s _ h => h.1) fun ⟨hact, htr⟩ => ?_
    refine .pre ((recordActive_spec hact _).post (fun _ s _ h => ?_) fun _ _ h => h)
      (P := At tx (live S p tx m ⊓ value S p tx a x)) fun s _ h => h.2
    obtain ⟨htx, hlive, hvalue, horigin⟩ := h
    refine ⟨boundary_of_recorded hact ⟨htx, hlive.1.load_value hvalue, hlive.2.load a x⟩, ?_⟩
    intro y hy
    rw [htx] at hy ⊢
    obtain ⟨hev, rfl⟩ := List.cons.inj hy
    obtain ⟨-, rfl⟩ := Event.load.inj hev
    exact ⟨horigin, hlive.2.holds_of_mem_writes⟩
  · obtain ⟨⟨tx, hidle, hat⟩ | ⟨tx, m, hact, hat⟩, htr⟩ := h
    · exact .inl ⟨tx, ⟨hidle, hat.1 ▸ htr⟩, hat⟩
    · exact .inr ⟨tx, m, ⟨hact, hat.1 ▸ htr⟩, hat⟩

/-- A load that records a value knows where it comes from. -/
theorem exec_load_origin :
    Triple (protocol S) p (pre S p (.load a) ⊓ traceFrom S p tr) (exec S.cfg p (.load a))
      (fun _ => boundary S p ⊓ origin S p tr a) (boundary S p ⊓ origin S p tr a) := by
  have hload : Triple (protocol S) p (pre S p (.load a)) (intStmLoad S.cfg p a) (afterLoad S p a)
      (boundary S p) :=
    activeWith_spec fun tx m hact hm => intStmLoad_spec hact hm
  have hframe := hload.frame (F := traceFrom S p tr) intStmLoad_fades fun s s' hf h => ?_
  · exact .bind (hframe.post (fun _ _ _ h => h) fun _ _ h => ⟨h.1, origin_of_traceFrom h.2⟩)
      fun x => recordLoad_origin
  · rcases hf with hf | hf
    · exact h.imp hf.trans hf.trans
    · exact .inr hf

end TinyStm
