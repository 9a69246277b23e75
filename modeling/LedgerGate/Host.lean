import LedgerGate.Verdict
import LedgerGate.Watch

/-!
# The host of a program

What the program asks for and does not decide: what the clock shows whenever it is looked at, the
order in which the names in a directory are listed, and how the work of verifiers goes that are
run at the same time.
-/

namespace LedgerGate

/-- How the task ended that was to answer for a verifier. -/
inductive Fate where
  /-- With what the verifier said, which may have been called off, and had a deadline. -/
  | answered (cancelled : Signal) (deadline : Deadline)
  /-- There were no workers any more. -/
  | closed
  /-- The verifier broke down. -/
  | failed (why : String)
  /-- The verifier took longer than its limit, in milliseconds, and more than the grace on top. -/
  | overdue (limit : Nat)
  /-- With nothing. The task was aborted, or broke down itself. -/
  | lost
deriving DecidableEq, Repr

/-- How the tasks for verifiers go that are run at the same time. -/
structure Course where
  fate : VerifierId → Fate
  /-- The order in which tasks end. -/
  arrivals : List VerifierId → List VerifierId
  arrivals_perm : ∀ ids, (arrivals ids).Perm ids

namespace Course

/-- All tasks end with an answer, one after the other, and nothing is told to stop. -/
def calm : Course := ⟨fun _ => .answered .never .never, id, fun ids => List.Perm.refl ids⟩

end Course

/-- What a call finds outside of the files. -/
structure Host where
  /-- What the clock shows when it is looked at during the call, the first time and the times
  after, in milliseconds since 1970. -/
  clock : Nat → UInt64
  /-- The order in which names are listed. -/
  listing : List String → List String
  listing_perm : ∀ names, (listing names).Perm names
  course : Course

namespace Host

/-- A host whose clock stands still, which lists names in their order, and on which nothing keeps
verifiers from their work. -/
def still (now : UInt64) : Host where
  clock _ := now
  listing := id
  listing_perm names := List.Perm.refl names
  course := .calm

instance : Coe UInt64 Host := ⟨still⟩

variable {h : Host} {names : List String} {name : String}

/-- A name is listed if it is there. -/
@[simp] theorem mem_listing : name ∈ h.listing names ↔ name ∈ names :=
  (h.listing_perm names).mem_iff

end Host
end LedgerGate
