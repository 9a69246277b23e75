import LedgerGate.Proofs.Ledger.Identifiers

/-!
# What is admitted

A decision allows its delta if it is approved and the delta is sound on the balances
(`Consensus.Allows`). A layer begins a transaction for exactly those decisions that allow their
delta, and under an identifier that is good and new (`Layer.Admits`). A commit of any other does
nothing (`Layer.commit_of_not_admits`).
-/

namespace LedgerGate

open Ledger
open Log (Entry)

/-! ## What may be committed -/

/-- Whether a decision allows a delta to be applied to balances: it is approved and names its
intent, and the delta leaves no account below zero, adds up to the same before and after, and was
made on the balances. -/
structure Consensus.Allows (c : Consensus) (b : Balances) (δ : Delta) : Prop where
  approved : c.approved = true
  intent : c.intentHash ≠ ""
  delta : c.delta = some δ
  nonneg : ∀ p ∈ δ.changes.entries, 0 ≤ p.2.after.value
  totals : ∃ i o, δ.inputs = .ok i ∧ δ.outputs = .ok o ∧ i.value = o.value
  current : ∀ p ∈ δ.changes.entries, p.2.before.value = (b.of p.1).value

namespace Layer

variable {l : Layer} {tx : String} {c : Consensus} {δ : Delta} {b : Entry} {d : Disk} {i : Nat}
  {F : Files}

theorem isStale_eq_false_iff : l.isStale δ = false ↔
    ∀ p ∈ δ.changes.entries, p.2.before.value = (l.balances.of p.1).value := by
  rw [isStale, List.any_eq_false, l.agreed]
  refine forall₂_congr fun p _ => ?_
  rw [Bool.not_eq_true', Bool.not_eq_false, Decimal.sameValue_iff]
  exact eq_comm

/-- A decision allows a delta exactly if the delta may be committed and is not stale. -/
theorem allows_iff : c.Allows l.balances δ ↔ c.committable? = some δ ∧ l.isStale δ = false := by
  rw [Consensus.committable?_eq_some_iff, Delta.conserves_eq_ok_iff, isStale_eq_false_iff]
  constructor
  · rintro ⟨happroved, hintent, hdelta, hnonneg, htotals, hcurrent⟩
    exact ⟨⟨happroved, hintent, hdelta, hnonneg, htotals⟩, hcurrent⟩
  · rintro ⟨⟨happroved, hintent, hdelta, hnonneg, htotals⟩, hcurrent⟩
    exact ⟨happroved, hintent, hdelta, hnonneg, htotals, hcurrent⟩

/-- Whether a layer begins a transaction for a decision. -/
structure Admits (l : Layer) (tx : String) (c : Consensus) (δ : Delta) : Prop where
  good : isTx tx = true
  unused : l.isUsed tx = false
  allows : c.Allows l.balances δ

/-- The entry that begins the transaction of a decision. -/
def beginning (tx : String) (c : Consensus) (δ : Delta) (host : Host) : Entry :=
  ⟨.begin, tx, payloadHash tx c.intentHash δ, host.clock 0⟩

theorem Admits.isSound (h : l.Admits tx c δ) (host : Host) : (beginning tx c δ host).IsSound :=
  have hbounds := checkTx_ok (checkTx_eq_ok_iff.mpr h.good)
  ⟨hbounds.1, hbounds.2, utf8ByteSize_textDigest_le _⟩

/-- A decision that is admitted is begun and applied. -/
theorem Admits.commit_eq (h : l.Admits tx c δ) (hserves : l.fault = none) (host : Host)
    (crash : Option CrashPoint) : l.commit tx c host crash =
      l.beginAndApply (beginning tx c δ host) (host.clock 1) c.intentHash δ crash := by
  obtain ⟨hcommittable, hfresh⟩ := allows_iff.mp h.allows
  have hadmission : l.admission tx c = .ok (some δ) :=
    admission_eq_some_iff.mpr ⟨checkTx_eq_ok_iff.mpr h.good, hserves, hcommittable⟩
  exact commit_of_admission hadmission hfresh host crash

/-- A commit of a decision that is not admitted does nothing. -/
theorem commit_of_not_admits (h : ∀ δ, ¬ l.Admits tx c δ) (host : Host)
    (crash : Option CrashPoint) :
    ∃ r, r ≠ .ok .committed ∧ l.commit tx c host crash = pure (l, r) := by
  by_cases hused : l.isUsed tx = true
  · exact commit_of_isUsed hused c host crash
  · obtain hnothing | ⟨δ, hadmission, hstale⟩ := l.commit_cases tx c host crash
    · exact hnothing
    · obtain ⟨htx, -, hcommittable⟩ := admission_eq_some_iff.mp hadmission
      have hadmits : l.Admits tx c δ :=
        ⟨checkTx_eq_ok_iff.mp htx, Bool.eq_false_iff.mpr hused,
          allows_iff.mpr ⟨hcommittable, hstale⟩⟩
      exact absurd hadmits (h δ)

end Layer
end LedgerGate
