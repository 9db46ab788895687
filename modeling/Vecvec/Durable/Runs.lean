import Vecvec.Durable.Requests
import Vecvec.Durable.Recovery

/-!
# Durable/Runs — histories of requests, crashes and restarts

A durable collection is either running or a directory on disk.  Clients make requests one at a
time; the process may stop at any point of a call, and what its directory keeps may be opened again.
-/

namespace Vecvec

open Machinery

/-- A durable collection, running or not. -/
inductive Node
  | running (w : World)
  | stopped (d : Disk)

/-- What happens to a durable collection. -/
inductive Event
  /-- a request, answered -/
  | call (w : World) (r : Request) (resp : Response)
  /-- a request, cut off after some of its actions -/
  | crash (w : World) (r : Request) (os : List DurableOp)
  /-- the process stopped between two requests -/
  | stop
  /-- a directory opened -/
  | opened (d : Disk)
  /-- a directory being opened, cut off -/
  | openCrash (d : Disk)

variable (P : Platform) (cfg : CollectionConfig)

/-- One event.  Writes are flushed (`FsyncMode::Sync`). -/
inductive Node.Step : Node → Event → Node → Prop
  | call {w w' : World} {r : Request} {resp : Response}
      (hr : run (World.step P cfg) 0 (r.call P cfg) w = some (resp, w')) :
      Step (.running w) (.call w r resp) (.running w')
  | crash {w w' : World} {r : Request} {os : List DurableOp} {p : DurableProg Response} {d : Disk}
      (hst : Steps (World.step P cfg) 0 (r.call P cfg) w os p w') (hd : w'.disk.Survives d) :
      Step (.running w) (.crash w r os) (.stopped d)
  | stop {w : World} {d : Disk} (hd : w.disk.Survives d) : Step (.running w) .stop (.stopped d)
  | opened {d : Disk} {w : World} {clock : ℕ → ℕ}
      (hr : run (World.step P cfg) 0 (Durable.openCollection cfg) (.boot d cfg .sync clock) =
        some (.ok (), w)) :
      Step (.stopped d) (.opened d) (.running w)
  | openCrash {d d' : Disk} {w : World} {clock : ℕ → ℕ} {os : List DurableOp}
      {p : DurableProg (Except CoreError Unit)}
      (hst : Steps (World.step P cfg) 0 (Durable.openCollection cfg) (.boot d cfg .sync clock) os
        p w) (hd : w.disk.Survives d') :
      Step (.stopped d) (.openCrash d) (.stopped d')

/-- A history. -/
inductive Runs : Node → List Event → Node → Prop
  | nil (n : Node) : Runs n [] n
  | snoc {n n' n'' : Node} {evs : List Event} {e : Event} (h : Runs n evs n')
      (hs : Node.Step P cfg n' e n'') : Runs n (evs ++ [e]) n''

variable {P cfg}

/-- **The invariant rule, with the past**: what holds of the events so far and of the node they lead
to, if every event of a kind preserves it. -/
theorem Runs.invariant_past {I : List Event → Node → Prop} {ok : Event → Prop}
    (hstep : ∀ evs n e n', I evs n → ok e → Node.Step P cfg n e n' → I (evs ++ [e]) n')
    {n n' : Node} {evs : List Event} (h : Runs P cfg n evs n') (hn : I [] n)
    (hok : ∀ e ∈ evs, ok e) : I evs n' := by
  induction h with
  | nil => exact hn
  | snoc _ hs ih =>
    exact hstep _ _ _ _ (ih (fun e he => hok e (List.mem_append_left _ he)))
      (hok _ (List.mem_append_right _ List.mem_cons_self)) hs

/-- **The invariant rule**: what every event of a kind preserves holds at the end of every history
of such events. -/
theorem Runs.invariant {I : Node → Prop} {ok : Event → Prop}
    (hstep : ∀ n e n', I n → ok e → Node.Step P cfg n e n' → I n') {n n' : Node}
    {evs : List Event} (h : Runs P cfg n evs n') (hn : I n) (hok : ∀ e ∈ evs, ok e) : I n' :=
  @Runs.invariant_past P cfg (fun _ => I) ok (fun _ => hstep) _ _ _ h hn hok

/-- One history after another. -/
theorem Runs.append {n n' n'' : Node} {evs evs' : List Event} (h : Runs P cfg n evs n')
    (h' : Runs P cfg n' evs' n'') : Runs P cfg n (evs ++ evs') n'' := by
  induction h' with
  | nil => rwa [List.append_nil]
  | snoc _ hs ih =>
    rw [← List.append_assoc]
    exact .snoc ih hs

/-! ## What an event does -/

/-- Running worlds are idle between requests. -/
def Node.Idle : Node → Prop
  | .running w => w.Idle
  | .stopped _ => True

theorem quiet_recover {d : Disk} {c : Collection} (hc : d.recover P cfg = some c) : c.Quiet := by
  obtain ⟨segs, -, rfl⟩ := Disk.of_recover hc
  exact (quiet_base segs).foldl_replay _

theorem keyed_recover {d : Disk} {c : Collection} (hc : d.recover P cfg = some c) : c.Keyed := by
  obtain ⟨segs, -, rfl⟩ := Disk.of_recover hc
  refine Collection.Keyed.foldl_replay (c := d.base segs) ?_ _
  exact Collection.keyed_insertSegments (fun _ _ h => by cases h) segs

theorem idle_opened {d : Disk} {c : Collection} {clock : ℕ → ℕ} (hc : d.recover P cfg = some c) :
    (World.opened P cfg d .sync clock c).Idle :=
  ⟨quiet_recover hc, rfl, rfl, keyed_recover hc⟩

section

variable {w : World} {n : Node}

/-- **A request, answered**: the moves it made. -/
theorem Node.Step.of_call {r : Request} {resp : Response}
    (hs : Node.Step P cfg (.running w) (.call w r resp) n) (hi : w.Idle) :
    ∃ ms es w', n = .running w' ∧ Moves P cfg w ms es w' ∧ r.Makes w resp ms := by
  cases hs with
  | call hr =>
    obtain ⟨resp', ms, es, w', hp, hm, hmk⟩ := r.performs (P := P) (t := 0) hi
    obtain ⟨rfl, rfl⟩ := hp.of_run hr
    exact ⟨ms, es, _, rfl, hm, hmk⟩

/-- **A request, cut off**: a prefix of the effects of the moves it was to make. -/
theorem Node.Step.of_crash {r : Request} {os : List DurableOp}
    (hs : Node.Step P cfg (.running w) (.crash w r os) n) (hi : w.Idle) :
    ∃ d resp ms es es' w', n = .stopped d ∧ Moves P cfg w ms (es ++ es') w' ∧ r.Makes w resp ms ∧
      (w.disk.performAll P cfg es).Survives d ∧ (∀ e ∈ es, ∃ o ∈ os, ∃ s, e ∈ o.effects s) ∧
      ∀ o ∈ os, ∃ s, ∀ e ∈ o.effects s, e ∈ es := by
  cases hs with
  | crash hst hd =>
    obtain ⟨resp, ms, es, w', hp, hm, hmk⟩ := r.performs (P := P) (t := 0) hi
    obtain ⟨es₁, es₂, rfl, -, hv, hes, hos⟩ := hp.of_steps hst
    have hv : _ = w.disk.performAll P cfg es₁ := hv
    exact ⟨_, resp, ms, es₁, es₂, w', rfl, hm, hmk, hv ▸ hd, hes, hos⟩

/-- **A directory, opened**: it stands for a collection. -/
theorem Node.Step.of_opened {d : Disk} (hs : Node.Step P cfg (.stopped d) (.opened d) n) :
    ∃ c clock, d.recover P cfg = some c ∧ n = .running (.opened P cfg d .sync clock c) := by
  cases hs with
  | @opened _ _ clock hr =>
    cases hc : d.recover P cfg with
    | some c =>
      obtain ⟨-, rfl⟩ := (performs_open hc).of_run hr
      exact ⟨c, clock, rfl, rfl⟩
    | none =>
      obtain ⟨e, w', hp⟩ := @performs_open_error P cfg 0 d .sync clock hc
      obtain ⟨h, -⟩ := hp.of_run hr
      cases h

/-- **A directory being opened, cut off**: its config written or not, its log trimmed or not. -/
theorem Node.Step.of_openCrash {d : Disk} (hs : Node.Step P cfg (.stopped d) (.openCrash d) n) :
    ∃ d' es, n = .stopped d' ∧ es <+: [.writeConfig, .openLog d.generation] ∧
      (d.performAll P cfg es).Survives d' := by
  cases hs with
  | @openCrash _ d' _ clock _ _ hst hd =>
    have key : ∀ es, es <+: [.writeConfig, .openLog d.generation] →
        (∃ r w', Performs (World.persistence P cfg) 0 (Durable.openCollection cfg)
          (.boot d cfg .sync clock) es r w') →
        ∃ es₁, es₁ <+: [.writeConfig, .openLog d.generation] ∧
          (d.performAll P cfg es₁).Survives d' := by
      rintro es hes ⟨r, w', hp⟩
      obtain ⟨es₁, es₂, rfl, -, hv, -⟩ := hp.of_steps hst
      have hv : _ = d.performAll P cfg es₁ := hv
      exact ⟨es₁, (List.prefix_append _ _).trans hes, hv ▸ hd⟩
    obtain ⟨es, hes, hsv⟩ : ∃ es₁, es₁ <+: [.writeConfig, .openLog d.generation] ∧
        (d.performAll P cfg es₁).Survives d' := by
      cases hc : d.recover P cfg with
      | some c => exact key _ List.prefix_rfl ⟨_, _, performs_open hc⟩
      | none =>
        obtain ⟨e, w', hp⟩ := @performs_open_error P cfg 0 d .sync clock hc
        exact key [.writeConfig] (List.prefix_append _ [_]) ⟨_, _, hp⟩
    exact ⟨_, es, rfl, hes, hsv⟩

theorem idle_step {n n' : Node} {e : Event} (hn : n.Idle) (hs : Node.Step P cfg n e n') :
    n'.Idle := by
  cases hs with
  | call hr =>
    obtain ⟨ms, es, w', hw, hm, -⟩ := (Node.Step.call hr).of_call hn
    cases hw
    exact hm.idle hn
  | crash => trivial
  | stop => trivial
  | opened hr =>
    obtain ⟨c, clock, hc, hw⟩ := (Node.Step.opened hr).of_opened
    cases hw
    exact idle_opened hc
  | openCrash => trivial

/-- Between requests, a running collection is idle. -/
theorem Runs.idle {n n' : Node} {evs : List Event} (h : Runs P cfg n evs n') (hn : n.Idle) :
    n'.Idle :=
  @Runs.invariant P cfg _ (fun _ => True) (fun _ _ _ hi _ hs => idle_step hi hs) _ _ _ h hn
    fun _ _ => trivial

end

end Vecvec
