import LedgerGate.Event
import LedgerGate.Judge
import LedgerGate.Ledger.Commit
import LedgerGate.Ledger.Recovery

/-!
# The service

Verification and commit together. The judge decides on an intent, given the current balances,
and the decision is recorded. An approved intent can then be committed.
-/

namespace LedgerGate

/-- An open ledger with its judge and the place for its events. -/
structure Service where
  config : Config
  judge : Judge
  layer : Layer
  sink : Sink

namespace Service

/-- Opens the ledger of a configuration. -/
def recover (config : Config) (sink : Sink) (host : Host) : Job (Service × Recovery.Report) := do
  Job.ofExcept config.validate
  let (layer, report) ← Ledger.recover config.dataDir config.compactionThreshold host
  let judge ← Job.ofExcept (Judge.ofConfig config)
  return (⟨config, judge, layer, sink⟩, report)

/-- Decides on an intent and records the decision. A record that cannot be kept does not
matter. -/
def verify (s : Service) (i : Intent) (host : Host) : Program (Service × Consensus) := do
  let (c, features) := s.judge.decide host.course i s.layer.balances
  let r ← (s.sink.accept ⟨host.clock 0, c, features, 0⟩).run
  match r with
  | .ok sink => return ({ s with sink := sink }, c)
  | .error _ => return (s, c)

/-- Applies a decision as a transaction. -/
def commit (s : Service) (tx : String) (c : Consensus) (host : Host)
    (crash : Option CrashPoint) : Program (Service × Except Fault Outcome) := do
  let (layer, r) ← s.layer.commit tx c host crash
  return ({ s with layer := layer }, r)

end Service
end LedgerGate
