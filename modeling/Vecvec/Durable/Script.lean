import Vecvec.Durable.Runs
import Vecvec.Persist.Sample

/-!
# Durable/Script — histories, computed

A script says what happens to a collection — opened, asked for this and that, stopped after so many
actions — and computing it yields a history.
-/

namespace Vecvec

open Machinery

/-- One line of a script. -/
inductive Command
  /-- the directory is opened, at time zero -/
  | open
  /-- a request -/
  | call (r : Request)
  /-- a request, cut off after some actions -/
  | crash (r : Request) (actions : ℕ)
  /-- the process is stopped -/
  | stop

/-- What is left when every unflushed byte is lost. -/
def Disk.flushedOnly (d : Disk) : Disk :=
  { d with wals := fun g => (d.wals g).map fun f => ⟨f.durable, []⟩ }

theorem Disk.survives_flushedOnly (d : Disk) : d.Survives d.flushedOnly := by
  refine ⟨rfl, rfl, rfl, rfl, fun g => ?_⟩
  cases hg : d.wals g with
  | none => exact .inl ⟨rfl, by simp [flushedOnly, hg]⟩
  | some f =>
    refine .inr ⟨f, ⟨f.durable, []⟩, rfl, by simp [flushedOnly, hg], [], List.nil_prefix, ?_⟩
    rw [List.append_nil]

variable (P : Platform) (cfg : CollectionConfig)

/-- What a line of a script does. -/
def Node.exec : Node → Command → Option (Event × Node)
  | .running w, .call r => (run (World.step P cfg) 0 (r.call P cfg) w).map fun x =>
      (.call w r x.1, .running x.2)
  | .running w, .crash r n =>
      let x := firstSteps (World.step P cfg) 0 n (r.call P cfg) w
      some (.crash w r x.1, .stopped x.2.2.disk.flushedOnly)
  | .running w, .stop => some (.stop, .stopped w.disk.flushedOnly)
  | .stopped d, .open =>
      match run (World.step P cfg) 0 (Durable.openCollection cfg)
        (.boot d cfg .sync fun _ => 0) with
      | some (.ok (), w) => some (.opened d, .running w)
      | _ => none
  | _, _ => none

/-- What a script does. -/
def Node.script : Node → List Command → Option (List Event × Node)
  | n, [] => some ([], n)
  | n, c :: cs => (n.exec P cfg c).bind fun x => (script x.2 cs).map fun y => (x.1 :: y.1, y.2)

variable {P cfg} {n n' : Node} {e : Event}

theorem Node.step_of_exec {c : Command} (h : n.exec P cfg c = some (e, n')) :
    Node.Step P cfg n e n' := by
  unfold Node.exec at h
  split at h
  · obtain ⟨x, hx, hxe⟩ := Option.map_eq_some_iff.mp h
    cases hxe
    exact .call hx
  · cases h
    exact .crash (steps_firstSteps _ _ _) (Disk.survives_flushedOnly _)
  · cases h
    exact .stop (Disk.survives_flushedOnly _)
  · split at h
    · cases h
      exact .opened ‹_›
    · cases h
  · cases h

theorem Runs.cons {n₁ : Node} {evs : List Event} (hs : Node.Step P cfg n e n₁)
    (h : Runs P cfg n₁ evs n') : Runs P cfg n (e :: evs) n' := by
  induction h with
  | nil => exact Runs.snoc (.nil n) hs
  | snoc _ hs' ih => exact Runs.snoc ih hs'

/-- **A script that goes through is a history.** -/
theorem Node.runs_of_script {cs : List Command} {evs : List Event}
    (h : n.script P cfg cs = some (evs, n')) : Runs P cfg n evs n' := by
  induction cs generalizing n evs with
  | nil =>
    cases h
    exact .nil _
  | cons c cs ih =>
    obtain ⟨⟨e, n₁⟩, hx, h⟩ := Option.bind_eq_some_iff.mp h
    obtain ⟨⟨evs', n₂⟩, hy, h⟩ := Option.map_eq_some_iff.mp h
    cases h
    exact .cons (Node.step_of_exec hx) (ih hy)

variable (P cfg)

/-- A script from an empty directory goes through, and ends in a directory with a property. -/
def Ends (cs : List Command) (Q : List Event → Disk → Prop) : Prop :=
  match Node.script P cfg (.stopped .empty) cs with
  | some (evs, .stopped d) => Q evs d
  | _ => False

instance {cs : List Command} {Q : List Event → Disk → Prop} [∀ evs d, Decidable (Q evs d)] :
    Decidable (Ends P cfg cs Q) := by
  unfold Ends
  split <;> infer_instance

variable {P cfg}

theorem Ends.exists_runs {cs : List Command} {Q : List Event → Disk → Prop}
    (h : Ends P cfg cs Q) : ∃ evs d, Runs P cfg (.stopped .empty) evs (.stopped d) ∧ Q evs d := by
  unfold Ends at h
  split at h
  · exact ⟨_, _, Node.runs_of_script ‹_›, h⟩
  · cases h

variable (P cfg)

/-- The collection is running, and the point is live. -/
def Node.shows (id : GlobalId) : Node → Bool
  | .running w => (w.collection.liveMap id).isSome
  | .stopped _ => false

/-- A script from a node goes through, and its history and its end have a property. -/
def Node.Leads (n : Node) (cs : List Command) (Q : List Event → Node → Prop) : Prop :=
  match n.script P cfg cs with
  | some (evs, n') => Q evs n'
  | none => False

instance Node.decidableLeads {cs : List Command} {Q : List Event → Node → Prop}
    [∀ evs n, Decidable (Q evs n)] :
    Decidable (n.Leads P cfg cs Q) := by
  unfold Node.Leads
  split <;> infer_instance

variable {P cfg}

theorem Node.Leads.exists_runs {cs : List Command} {Q : List Event → Node → Prop}
    (h : n.Leads P cfg cs Q) : ∃ evs n', Runs P cfg n evs n' ∧ Q evs n' := by
  unfold Node.Leads at h
  split at h
  · exact ⟨_, _, Node.runs_of_script ‹_›, h⟩
  · exact h.elim

/-- A script of one request: the request is answered. -/
theorem Node.Leads.exists_call {w : World} {r : Request} {Q : List Event → Node → Prop}
    (h : (Node.running w).Leads P cfg [.call r] Q) : ∃ resp w',
      Node.Step P cfg (.running w) (.call w r resp) (.running w') ∧
        Q [.call w r resp] (.running w') := by
  unfold Node.Leads at h
  split at h
  · rename_i evs n' hs
    obtain ⟨⟨e, n₁⟩, hx, hs⟩ := Option.bind_eq_some_iff.mp hs
    obtain ⟨⟨resp, w'⟩, hr, hx⟩ := Option.map_eq_some_iff.mp hx
    cases hx
    cases hs
    exact ⟨resp, w', .call hr, h⟩
  · exact h.elim

/-- A script that only stops the process. -/
theorem Node.Leads.of_stop {w : World} {Q : List Event → Node → Prop}
    (h : (Node.running w).Leads P cfg [.stop] Q) : Q [.stop] (.stopped w.disk.flushedOnly) := h

/-- A script that only opens a directory. -/
theorem Node.Leads.exists_open {d : Disk} {Q : List Event → Node → Prop}
    (h : (Node.stopped d).Leads P cfg [.open] Q) : ∃ w,
      run (World.step P cfg) 0 (Durable.openCollection cfg) (.boot d cfg .sync fun _ => 0) =
        some (.ok (), w) ∧ Q [.opened d] (.running w) := by
  unfold Node.Leads at h
  split at h
  · rename_i evs n' hs
    obtain ⟨⟨e, n₁⟩, hx, hs⟩ := Option.bind_eq_some_iff.mp hs
    cases hs
    simp only [Node.exec] at hx
    split at hx
    · rename_i w hr
      cases hx
      exact ⟨w, hr, h⟩
    · cases hx
  · exact h.elim

end Vecvec
