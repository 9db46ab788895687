import Vecvec.Durable.Log
import Vecvec.Durable.Script

/-!
# Durable/Retries — a directory is recovered in as many attempts as it takes

An attempt to open a directory writes: the config, if there is none, and the log, whose torn tail is
cut off.  It may be stopped after any of its actions, by another loss of power, and begun again.
Whatever directory one starts from — written by this program or not, whole or torn, with segment
files missing or without a `HEAD` — **every attempt stands for the same collection** as the first
(`restarts_idempotent`): the config is not part of it, and a log cut off where its reader stops is
read as before.
-/

namespace Vecvec

open Machinery

variable {P : Platform} {cfg : CollectionConfig} {d d' : Disk} {c : Collection} {n n' : Node}

/-- The event makes no request. -/
def Event.Restarts : Event → Prop
  | stop | opened _ | openCrash _ => True
  | _ => False

instance : DecidablePred Event.Restarts
  | .stop | .opened _ | .openCrash _ => instDecidableTrue
  | .call .. | .crash .. => instDecidableFalse

namespace Disk

/-- Nothing is pending: what a loss of power leaves of a directory. -/
def Flushed (d : Disk) : Prop := ∀ g f, d.wals g = some f → f.pending = []

/-- Opening the directory makes the collection, at any time. -/
def OpensAs (P : Platform) (cfg : CollectionConfig) (d : Disk) (c : Collection) : Prop :=
  ∀ clock, ∃ w, run (World.step P cfg) 0 (Durable.openCollection cfg) (.boot d cfg .sync clock) =
    some (.ok (), w) ∧ w.collection = c

/-- The directories differ in their config, and in what a reader of the log does not reach. -/
structure Alike (P : Platform) (d d' : Disk) : Prop where
  /-- The same checkpoint. -/
  head : d'.head = d.head
  /-- The same versions. -/
  versions : d'.versions = d.versions
  /-- The same segment files. -/
  segments : d'.segments = d.segments
  /-- The same log, once it is opened. -/
  log : WalFile.opened P (d'.wals d.generation) = WalFile.opened P (d.wals d.generation)

theorem flushed_of_survives {d₀ : Disk} (h : d₀.Survives d) : d.Flushed := by
  obtain ⟨-, -, -, -, hw⟩ := h
  intro g f hf
  rcases hw g with ⟨-, hg⟩ | ⟨f₀, f', -, hg, kept, -, rfl⟩
  · cases hg.symm.trans hf
  · cases hg.symm.trans hf
    rfl

theorem alike_refl (d : Disk) : d.Alike P d := ⟨rfl, rfl, rfl, rfl⟩

/-- **Alike directories stand for the same collection.** -/
theorem Alike.recover_eq (h : d.Alike P d') : d'.recover P cfg = d.recover P cfg := by
  have href : d'.referenced = d.referenced := by rw [referenced, referenced, h.versions]
  have hnamed : d'.named = d.named := by rw [named, named, h.head, href]
  have hload : d'.load d'.named = d.load d.named := by rw [load, load, h.segments, hnamed]
  have hrecords : d'.records P = d.records P := by
    rw [records, records, generation_congr h.head, h.log]
  have hbase : d'.base = d.base := by
    funext segs
    rw [base, base, workingIds, workingIds, h.head, h.versions]
  have hreads : d'.Reads P ↔ d.Reads P := by rw [Reads, Reads, h.head, h.versions]
  simp only [recover, hreads, hload, hrecords, hbase]

/-- A log that has been opened is opened again unchanged. -/
theorem opened_opened (o : Option WalFile) :
    WalFile.opened P (some (WalFile.opened P o)) = WalFile.opened P o :=
  (WalFile.whole_opened o).opened

theorem opened_flushed {o : Option WalFile} (h : ∀ f, o = some f → f.pending = []) :
    (WalFile.opened P o).pending = [] := by
  cases o with
  | none => rfl
  | some f => rw [WalFile.opened, WalFile.setLen, h f rfl, List.take_nil]

/-- An attempt trims the log, and writes the config. -/
theorem Alike.openLog (h : d.Alike P d') (hf : d'.Flushed) :
    d.Alike P (d'.perform P cfg (.openLog d'.generation)) ∧
      (d'.perform P cfg (.openLog d'.generation)).Flushed := by
  have hgen : d'.generation = d.generation := generation_congr h.head
  refine ⟨⟨h.head, h.versions, h.segments, ?_⟩, fun g f hg => ?_⟩
  · change WalFile.opened P (Function.update d'.wals d'.generation _ d.generation) = _
    rw [hgen, Function.update_self, opened_opened, h.log]
  · change Function.update d'.wals d'.generation _ g = some f at hg
    by_cases he : g = d'.generation
    · subst he
      rw [Function.update_self] at hg
      cases hg
      exact opened_flushed fun f hf' => hf _ f hf'
    · rw [Function.update_of_ne he] at hg
      exact hf g f hg

/-- **An attempt, cut off anywhere**, leaves a directory alike. -/
theorem Alike.attempt (h : d.Alike P d') (hf : d'.Flushed) {es : List DiskEffect}
    (hes : es <+: [.writeConfig, .openLog d'.generation]) :
    d.Alike P (d'.performAll P cfg es) ∧ (d'.performAll P cfg es).Flushed := by
  have hconfig : d.Alike P (d'.perform P cfg .writeConfig) ∧
      (d'.perform P cfg .writeConfig).Flushed :=
    ⟨⟨h.head, h.versions, h.segments, h.log⟩, hf⟩
  rcases es with _ | ⟨e, es⟩
  · exact ⟨h, hf⟩
  obtain ⟨rfl, hes'⟩ := List.cons_prefix_cons.mp hes
  clear hes
  rcases es with _ | ⟨e, es⟩
  · exact hconfig
  obtain ⟨rfl, hnil⟩ := List.cons_prefix_cons.mp hes'
  rw [List.prefix_nil.mp hnil]
  exact @Alike.openLog P cfg d _ hconfig.1 hconfig.2

/-- A loss of power takes nothing from a directory that is flushed. -/
theorem Alike.survives {d₁ : Disk} (h : d.Alike P d') (hf : d'.Flushed) (hs : d'.Survives d₁) :
    d.Alike P d₁ ∧ d₁.Flushed := by
  have hflushed := flushed_of_survives hs
  obtain ⟨-, hh, hv, hseg, hw⟩ := hs
  refine ⟨⟨hh.trans h.head, hv.trans h.versions, hseg.trans h.segments, ?_⟩, hflushed⟩
  have hlog : d₁.wals d.generation = d'.wals d.generation := by
    rcases hw d.generation with ⟨hg, hg'⟩ | ⟨f, f', hg, hg', hsf⟩
    · rw [hg, hg']
    · rw [hg, hg', WalFile.survives_of_flushed (hf _ f hg) hsf]
  rw [hlog, h.log]

theorem opensAs_iff : d.OpensAs P cfg c ↔ d.recover P cfg = some c := by
  constructor
  · intro h
    obtain ⟨w, hrun, rfl⟩ := h fun _ => 0
    obtain ⟨c, clock, hrec, hw⟩ := (Node.Step.opened hrun).of_opened
    cases hw
    exact hrec
  · exact fun h clock => ⟨_, (performs_open h).run, rfl⟩

end Disk

namespace Node

/-- The node came from the directory by attempts to open it. -/
def Attempts (P : Platform) (cfg : CollectionConfig) (d : Disk) : Node → Prop
  | .stopped d' => d.Alike P d' ∧ d'.Flushed
  | .running w => (d.Alike P w.disk ∧ w.disk.Flushed) ∧ d.recover P cfg = some w.collection

/-- The step lemma. -/
theorem Attempts.step {e : Event} (h : n.Attempts P cfg d) (he : e.Restarts)
    (hs : Node.Step P cfg n e n') : n'.Attempts P cfg d := by
  cases e with
  | call | crash => exact he.elim
  | stop =>
    cases hs with
    | stop hd => exact h.1.1.survives h.1.2 hd
  | opened d₁ =>
    cases n with
    | running w => cases hs
    | stopped d' =>
      obtain ⟨halike, hflushed⟩ := h
      have heq : d₁ = d' := by cases hs; rfl
      subst heq
      obtain ⟨c, clock, hrec, rfl⟩ := hs.of_opened
      exact ⟨halike.attempt hflushed List.prefix_rfl, halike.recover_eq ▸ hrec⟩
  | openCrash d₁ =>
    cases n with
    | running w => cases hs
    | stopped d' =>
      obtain ⟨halike, hflushed⟩ := h
      have heq : d₁ = d' := by cases hs; rfl
      subst heq
      obtain ⟨d₂, es, rfl, hes, hsv⟩ := hs.of_openCrash
      obtain ⟨halike', hflushed'⟩ := @Disk.Alike.attempt P cfg d _ halike hflushed _ hes
      exact halike'.survives hflushed' hsv

/-- What a node answers for: the collection it runs, or the one its directory opens as. -/
def Answers (P : Platform) (cfg : CollectionConfig) : Node → Collection → Prop
  | .stopped d, c => d.OpensAs P cfg c
  | .running w, c => w.collection = c

end Node

/-- **Recovery is idempotent.**  After any number of attempts to open a directory that a loss of
power has left, each cut off anywhere or gone through and stopped again, a running process holds the
collection the first attempt would have made, and a directory opens as that collection or, if the
first attempt would have failed, not at all. -/
theorem restarts_idempotent (hd : d.Flushed) {evs : List Event}
    (h : Runs P cfg (.stopped d) evs n) (hevs : ∀ e ∈ evs, e.Restarts) (c : Collection) :
    n.Answers P cfg c ↔ d.OpensAs P cfg c := by
  have hn : n.Attempts P cfg d :=
    h.invariant (fun _ _ _ hI he hs => Node.Attempts.step hI he hs) ⟨d.alike_refl, hd⟩ hevs
  rw [Disk.opensAs_iff]
  cases n with
  | stopped d' => exact Disk.opensAs_iff.trans (by rw [hn.1.recover_eq])
  | running w =>
    rw [hn.2, Option.some.injEq]
    rfl

/-- A directory with a log of one upsert, and the first bytes of another record. -/
def Disk.torn (P : Platform) : Disk :=
  Disk.empty.setWal 0
    (some ⟨walFrame P (.upsert 0 [1] none) ++ (walFrame P (.delete 0)).take 5, []⟩)

theorem Disk.flushed_torn : (Disk.torn P).Flushed := by
  intro g f hf
  by_cases hg : g = 0
  · subst hg
    cases hf
    rfl
  · have hf : Function.update Disk.empty.wals 0 _ g = some f := hf
    rw [Function.update_of_ne hg] at hf
    cases hf

theorem restarts_idempotent_sample : ∃ evs w,
    Runs Sample.platform (Sample.config none) (.stopped (.torn Sample.platform)) evs (.running w) ∧
      evs.length = 4 ∧ (Node.running w).shows 0 = true ∧
      (Disk.torn Sample.platform).OpensAs Sample.platform (Sample.config none) w.collection := by
  obtain ⟨d, hd⟩ : ∃ d, d = (firstSteps (World.step Sample.platform (Sample.config none)) 0 1
    (Durable.openCollection (Sample.config none)) (.boot (.torn Sample.platform)
      (Sample.config none) .sync fun _ => 0)).2.2.disk.flushedOnly := ⟨_, rfl⟩
  have hcrash : Node.Step Sample.platform (Sample.config none) (.stopped (.torn Sample.platform))
      (.openCrash (.torn Sample.platform)) (.stopped d) :=
    hd ▸ .openCrash (steps_firstSteps _ _ _) (Disk.survives_flushedOnly _)
  have h : (Node.stopped d).Leads Sample.platform (Sample.config none) [.open, .stop, .open]
      fun evs n => evs.length = 3 ∧ (∀ e ∈ evs, e.Restarts) ∧ n.shows 0 = true := by
    rw [hd]
    decide +kernel
  obtain ⟨evs, n, hruns, hlen, hevs, hshows⟩ := h.exists_runs
  have hruns' := Runs.cons hcrash hruns
  have hevs' : ∀ e ∈ Event.openCrash (.torn Sample.platform) :: evs, e.Restarts :=
    List.forall_mem_cons.mpr ⟨trivial, hevs⟩
  cases n with
  | stopped d' => cases hshows
  | running w =>
    exact ⟨_, w, hruns', congrArg (· + 1) hlen, hshows,
      (restarts_idempotent Disk.flushed_torn hruns' hevs' w.collection).mp rfl⟩

end Vecvec
