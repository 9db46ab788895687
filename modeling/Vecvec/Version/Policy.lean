import Vecvec.Basic

/-!
# Version/Policy — when the working state is committed automatically
-/

namespace Vecvec

/-- Rules for automatic commits; all `none` is manual commits only. -/
structure VersioningPolicy where
  /-- Commit once this many writes have accumulated. -/
  everyNWrites : Option ℕ
  /-- Commit once this many milliseconds have passed, if there are uncommitted writes. -/
  intervalMs : Option ℕ
  deriving DecidableEq

/-- Progress towards the next automatic commit. -/
structure TriggerEvaluator where
  /-- The policy. -/
  policy : VersioningPolicy
  /-- Writes accumulated since the last commit. -/
  writesSinceCommit : ℕ
  /-- The time of the last commit. -/
  lastCommitMs : ℕ

namespace TriggerEvaluator

/-- An evaluator anchored at `now`. -/
def new (policy : VersioningPolicy) (now : ℕ) : TriggerEvaluator := ⟨policy, 0, now⟩

/-- Records `n` writes (`u64::saturating_add`). -/
def recordWrites (e : TriggerEvaluator) (n : ℕ) : TriggerEvaluator :=
  { e with writesSinceCommit := min (e.writesSinceCommit + n) (2 ^ 64 - 1) }

/-- Whether a commit should fire at `now`. -/
def shouldCommit (e : TriggerEvaluator) (now : ℕ) : Bool :=
  (match e.policy.everyNWrites with
    | some n => n ≤ e.writesSinceCommit
    | none => false) ||
  (match e.policy.intervalMs with
    | some ms => 0 < e.writesSinceCommit && ms ≤ now - e.lastCommitMs
    | none => false)

/-- Records a commit at `now`: the write counter drops by `n`, not to zero, so that a burst that
overshoots fires again at the next multiple. -/
def noteCommit (e : TriggerEvaluator) (now : ℕ) : TriggerEvaluator :=
  { e with
    writesSinceCommit := match e.policy.everyNWrites with
      | some n => if n ≤ e.writesSinceCommit then e.writesSinceCommit - n else 0
      | none => 0
    lastCommitMs := now }

end TriggerEvaluator

/-- Static configuration of a collection, as far as it is read here. -/
structure CollectionConfig where
  /-- Vector dimensionality. -/
  dim : ℕ
  /-- The metric. -/
  metric : Metric
  /-- The automatic-commit policy. -/
  versioning : VersioningPolicy
  deriving DecidableEq

end Vecvec
