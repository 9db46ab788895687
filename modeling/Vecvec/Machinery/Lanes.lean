import Mathlib.Algebra.BigOperators.Group.List.Basic
import Mathlib.Data.List.Forall2

/-!
# Machinery/Lanes — sums in chunks, over accumulators of several lanes

A kernel that sums a term over two vectors takes them in chunks, adds to four accumulators of
several lanes each, reduces these to one number and adds the rest one by one.  In what order the
terms are added depends on the number of lanes; **what the result estimates does not**
(`Estimate.laneSum`): a relation between numbers and sums that adding keeps holds of the result and
the plain sum.

The relation counts how deep an addition is nested, so that it may be an equation (depth does not
matter) or a bound on an error that grows with the depth.
-/

namespace Machinery

variable {F : Type}

/-- `chunks_exact` -/
def chunksExact (w : ℕ) (xs : List F) : List (List F) :=
  (List.range (xs.length / w)).map fun c => (xs.drop (c * w)).take w

/-- `remainder` -/
def remainder (w : ℕ) (xs : List F) : List F := xs.drop (xs.length / w * w)

/-- Four accumulators. -/
structure Lanes (F : Type) where
  acc0 : List F
  acc1 : List F
  acc2 : List F
  acc3 : List F

/-- The lanes of a chunk that go to an accumulator. -/
def load (lanes j : ℕ) (x : List F) : List F := (x.drop (j * lanes)).take lanes

/-- Lane by lane. -/
def lanewise (f : F → F → F → F) (acc x y : List F) : List F :=
  List.zipWith (fun s p => f s p.1 p.2) acc (x.zip y)

namespace Lanes

/-- All lanes the same. -/
def splat (lanes : ℕ) (z : F) : Lanes F :=
  ⟨.replicate lanes z, .replicate lanes z, .replicate lanes z, .replicate lanes z⟩

/-- A chunk of each vector. -/
def step (f : F → F → F → F) (lanes : ℕ) (acc : Lanes F) (xy : List F × List F) : Lanes F where
  acc0 := lanewise f acc.acc0 (load lanes 0 xy.1) (load lanes 0 xy.2)
  acc1 := lanewise f acc.acc1 (load lanes 1 xy.1) (load lanes 1 xy.2)
  acc2 := lanewise f acc.acc2 (load lanes 2 xy.1) (load lanes 2 xy.2)
  acc3 := lanewise f acc.acc3 (load lanes 3 xy.1) (load lanes 3 xy.2)

/-- The four as one, and its lanes as one. -/
def reduce (add : F → F → F) (across : List F → F) (acc : Lanes F) : F :=
  across
    (List.zipWith add (List.zipWith add acc.acc0 acc.acc1) (List.zipWith add acc.acc2 acc.acc3))

end Lanes

/-- **A sum of a term over two vectors**: `f` adds a term in a lane, `tail` one of the rest. -/
def laneSum (zero : F) (add : F → F → F) (f tail : F → F → F → F) (lanes : ℕ) (across : List F → F)
    (a b : List F) : F :=
  let acc :=
    ((chunksExact (4 * lanes) a).zip (chunksExact (4 * lanes) b)).foldl (Lanes.step f lanes)
      (Lanes.splat lanes zero)
  ((remainder (4 * lanes) a).zip (remainder (4 * lanes) b)).foldl (fun s p => tail s p.1 p.2)
    (acc.reduce add across)

/-- The plain sum of a term. -/
def termSum {T : Type} [AddCommMonoid T] (term : F → F → T) (a b : List F) : T :=
  (List.zipWith term a b).sum

/-- **What a number estimates**, at a depth of nested additions. -/
structure Estimate (zero : F) (add : F → F → F) (T : Type) [AddCommMonoid T] where
  Holds : ℕ → F → T → Prop
  mono : ∀ {k k' s t}, k ≤ k' → Holds k s t → Holds k' s t
  zero : Holds 0 zero 0
  add : ∀ {k s t s' t'}, Holds k s t → Holds k s' t' → Holds (k + 1) (add s s') (t + t')

/-! ## Vectors in chunks -/

section

variable {T : Type} [AddCommMonoid T] {term : F → F → T} {a b a' b' : List F} {lanes w : ℕ}

theorem termSum_append (h : a.length = b.length) :
    termSum term (a ++ a') (b ++ b') = termSum term a b + termSum term a' b' := by
  rw [termSum, List.zipWith_append h, List.sum_append, termSum, termSum]

theorem length_load (h : a.length = 4 * lanes) {j : ℕ} (hj : j < 4) :
    (load lanes j a).length = lanes := by
  have hle : j * lanes + lanes ≤ 4 * lanes := by
    rw [← Nat.succ_mul]
    exact Nat.mul_le_mul_right lanes hj
  rw [load, List.length_take, List.length_drop, h]
  omega

/-- The loads of a chunk are the chunk. -/
theorem load_append (h : a.length = 4 * lanes) :
    load lanes 0 a ++ load lanes 1 a ++ load lanes 2 a ++ load lanes 3 a = a := by
  have h01 : load lanes 0 a ++ load lanes 1 a = a.take (2 * lanes) := by
    rw [load, load, Nat.zero_mul, List.drop_zero, Nat.one_mul, Nat.two_mul, List.take_add]
  have h012 : a.take (2 * lanes) ++ load lanes 2 a = a.take (3 * lanes) := by
    rw [load, Nat.succ_mul 2, List.take_add]
  have h0123 : a.take (3 * lanes) ++ load lanes 3 a = a.take (4 * lanes) := by
    rw [load, Nat.succ_mul 3, List.take_add]
  rw [h01, h012, h0123, ← h, List.take_length]

theorem termSum_load (ha : a.length = 4 * lanes) (hb : b.length = 4 * lanes) :
    termSum term a b = termSum term (load lanes 0 a) (load lanes 0 b) +
      termSum term (load lanes 1 a) (load lanes 1 b) +
      termSum term (load lanes 2 a) (load lanes 2 b) +
      termSum term (load lanes 3 a) (load lanes 3 b) := by
  have hlen {j : ℕ} (hj : j < 4) : (load lanes j a).length = (load lanes j b).length :=
    (length_load ha hj).trans (length_load hb hj).symm
  have h0 := hlen (j := 0) (by decide)
  have h1 := hlen (j := 1) (by decide)
  have h2 := hlen (j := 2) (by decide)
  rw [← termSum_append h0, ← termSum_append (by simp [h0, h1]),
    ← termSum_append (by simp [h0, h1, h2]), load_append ha, load_append hb]

theorem zip_chunksExact (h : a.length = b.length) :
    (chunksExact w a).zip (chunksExact w b) = (List.range (a.length / w)).map fun c =>
      ((a.drop (c * w)).take w, (b.drop (c * w)).take w) := by
  rw [chunksExact, chunksExact, ← h, List.zip_map']

end

/-! ## What a sum estimates -/

namespace Estimate

variable {T : Type} [AddCommMonoid T] {zero : F} {add : F → F → F} (E : Estimate zero add T)
  {f tail : F → F → F → F} {term : F → F → T} {leaf k : ℕ} {t t' : T} {a b x y l l' : List F}
  {lanes : ℕ} {acc : Lanes F}

/-- Adding a term to a number, once it is deep enough. -/
def Adds (f : F → F → F → F) (term : F → F → T) (leaf : ℕ) : Prop :=
  ∀ {k s t} (x y : F), leaf ≤ k → E.Holds k s t → E.Holds (k + 1) (f s x y) (t + term x y)

/-- What an accumulator of so many lanes estimates, all lanes together. -/
def HoldsAll (k lanes : ℕ) (l : List F) (t : T) : Prop :=
  ∃ ts, List.Forall₂ (E.Holds k) l ts ∧ l.length = lanes ∧ ts.sum = t

/-- Summing the lanes of an accumulator nests them so much deeper. -/
def Sums (across : List F → F) (lanes depth : ℕ) : Prop :=
  ∀ {k l t}, E.HoldsAll k lanes l t → E.Holds (k + depth) (across l) t

/-- What four accumulators estimate, all together. -/
def HoldsLanes (k lanes : ℕ) (acc : Lanes F) (t : T) : Prop :=
  ∃ t0 t1 t2 t3, E.HoldsAll k lanes acc.acc0 t0 ∧ E.HoldsAll k lanes acc.acc1 t1 ∧
    E.HoldsAll k lanes acc.acc2 t2 ∧ E.HoldsAll k lanes acc.acc3 t3 ∧ t0 + t1 + t2 + t3 = t

variable {E}

theorem HoldsAll.lanewise (hf : E.Adds f term leaf) (hk : leaf ≤ k) (h : E.HoldsAll k lanes l t)
    (hx : x.length = lanes) (hy : y.length = lanes) :
    E.HoldsAll (k + 1) lanes (lanewise f l x y) (t + termSum term x y) := by
  obtain ⟨ts, hl, rfl, rfl⟩ := h
  induction hl generalizing x y with
  | nil =>
    obtain rfl := List.eq_nil_of_length_eq_zero hx
    exact ⟨[], .nil, rfl, by simp [termSum]⟩
  | @cons s t l ts hs _ ih =>
    obtain ⟨x, xs, rfl⟩ := List.exists_cons_of_length_eq_add_one hx
    obtain ⟨y, ys, rfl⟩ := List.exists_cons_of_length_eq_add_one hy
    obtain ⟨ts', hl', hlen, hsum⟩ := ih (Nat.succ.inj hx) (Nat.succ.inj hy)
    refine ⟨(t + term x y) :: ts', .cons (hf x y hk hs) hl', congrArg Nat.succ hlen, ?_⟩
    rw [List.sum_cons, hsum, List.sum_cons, termSum, termSum, List.zipWith_cons_cons, List.sum_cons,
      add_add_add_comm]

theorem HoldsAll.zipWith_add (h : E.HoldsAll k lanes l t) (h' : E.HoldsAll k lanes l' t') :
    E.HoldsAll (k + 1) lanes (List.zipWith add l l') (t + t') := by
  obtain ⟨ts, hl, rfl, rfl⟩ := h
  obtain ⟨ts', hl', hlen, rfl⟩ := h'
  induction hl generalizing l' ts' with
  | nil =>
    obtain rfl := List.eq_nil_of_length_eq_zero hlen
    cases hl'
    exact ⟨[], .nil, rfl, by simp⟩
  | @cons s t l ts hs _ ih =>
    cases hl' with
    | nil => cases hlen
    | @cons s' t' l' ts' hs' hl' =>
      obtain ⟨us, hus, hlen', hsum⟩ := ih ts' hl' (Nat.succ.inj hlen)
      refine ⟨(t + t') :: us, .cons (E.add hs hs') hus, congrArg Nat.succ hlen', ?_⟩
      rw [List.sum_cons, hsum, List.sum_cons, List.sum_cons, add_add_add_comm]

theorem holdsAll_replicate : E.HoldsAll k lanes (List.replicate lanes zero) 0 := by
  refine ⟨List.replicate lanes 0, ?_, List.length_replicate .., by simp⟩
  induction lanes with
  | zero => exact .nil
  | succ n ih => exact .cons (E.mono (Nat.zero_le k) E.zero) ih

/-- **A chunk of each vector** is added, one deeper. -/
theorem HoldsLanes.step (hf : E.Adds f term leaf) (hk : leaf ≤ k) (h : E.HoldsLanes k lanes acc t)
    (hx : x.length = 4 * lanes) (hy : y.length = 4 * lanes) :
    E.HoldsLanes (k + 1) lanes (acc.step f lanes (x, y)) (t + termSum term x y) := by
  obtain ⟨t0, t1, t2, t3, h0, h1, h2, h3, rfl⟩ := h
  refine ⟨_, _, _, _, h0.lanewise hf hk (length_load hx (by decide)) (length_load hy (by decide)),
    h1.lanewise hf hk (length_load hx (by decide)) (length_load hy (by decide)),
    h2.lanewise hf hk (length_load hx (by decide)) (length_load hy (by decide)),
    h3.lanewise hf hk (length_load hx (by decide)) (length_load hy (by decide)), ?_⟩
  rw [termSum_load hx hy]
  simp only [add_add_add_comm]

/-- **The accumulators after some chunks** hold the terms of these. -/
theorem holdsLanes_foldl (hf : E.Adds f term leaf) (h : a.length = b.length) {m : ℕ}
    (hm : m * (4 * lanes) ≤ a.length) :
    E.HoldsLanes (leaf + m) lanes
      (((List.range m).map fun c => ((a.drop (c * (4 * lanes))).take (4 * lanes),
        (b.drop (c * (4 * lanes))).take (4 * lanes))).foldl (Lanes.step f lanes)
        (Lanes.splat lanes zero))
      (termSum term (a.take (m * (4 * lanes))) (b.take (m * (4 * lanes)))) := by
  induction m with
  | zero =>
    refine ⟨0, 0, 0, 0, holdsAll_replicate, holdsAll_replicate, holdsAll_replicate,
      holdsAll_replicate, ?_⟩
    simp [termSum]
  | succ m ih =>
    rw [Nat.succ_mul m] at hm ⊢
    rw [List.range_succ, List.map_append, List.foldl_append, List.take_add, List.take_add,
      termSum_append (by rw [List.length_take, List.length_take, h])]
    refine (ih (by omega)).step hf (Nat.le_add_right ..) ?_ ?_
    · rw [List.length_take, List.length_drop]
      omega
    · rw [List.length_take, List.length_drop]
      omega

theorem HoldsLanes.reduce {across : List F → F} {depth : ℕ} (hacross : E.Sums across lanes depth)
    (h : E.HoldsLanes k lanes acc t) : E.Holds (k + 2 + depth) (acc.reduce add across) t := by
  obtain ⟨t0, t1, t2, t3, h0, h1, h2, h3, rfl⟩ := h
  rw [add_assoc (t0 + t1)]
  exact hacross ((h0.zipWith_add h1).zipWith_add (h2.zipWith_add h3))

theorem holds_foldl (htail : E.Adds tail term leaf) {s : F} (hk : leaf ≤ k) (hs : E.Holds k s t)
    (h : a.length = b.length) :
    E.Holds (k + a.length) ((a.zip b).foldl (fun s p => tail s p.1 p.2) s)
      (t + termSum term a b) := by
  induction a generalizing b s t k with
  | nil => simpa [termSum] using hs
  | cons x xs ih =>
    obtain ⟨y, ys, rfl⟩ := List.exists_cons_of_length_eq_add_one h.symm
    have hrest := ih (Nat.le_succ_of_le hk) (htail x y hk hs) (Nat.succ.inj h)
    rw [List.length_cons, Nat.add_comm xs.length, ← Nat.add_assoc]
    rw [termSum, List.zipWith_cons_cons, List.sum_cons, ← add_assoc]
    exact hrest

/-! ## Lanes as one -/

/-- One lane. -/
theorem sums_headD : E.Sums (fun l => l.headD zero) 1 0 := by
  rintro k l t ⟨ts, hl, hlen, rfl⟩
  obtain ⟨s, rfl⟩ := List.length_eq_one_iff.mp hlen
  cases hl with
  | cons hs hnil =>
    cases hnil
    simpa using hs

/-- One lane after the other. -/
theorem sums_foldl : E.Sums (fun l => l.foldl add zero) lanes lanes := by
  rintro k l t ⟨ts, hl, rfl, rfl⟩
  have hfold {j : ℕ} {s : F} {t : T} (hs : E.Holds (k + j) s t) :
      E.Holds (k + j + l.length) (l.foldl add s) (t + ts.sum) := by
    induction hl generalizing j s t with
    | nil => simpa using hs
    | @cons s' t' l ts hs' _ ih =>
      have hdepth : k + j + (l.length + 1) = k + (j + 1) + l.length := by omega
      rw [List.length_cons, hdepth, List.foldl_cons, List.sum_cons, ← add_assoc t]
      exact ih (j := j + 1) (E.add hs (E.mono (Nat.le_add_right k j) hs'))
  simpa using hfold (j := 0) (E.mono (Nat.zero_le k) E.zero)

variable (E) in
/-- **A sum in lanes estimates the plain sum**, at a depth of one for each chunk, for each term of
the rest, and for the reductions. -/
theorem laneSum (hf : E.Adds f term leaf) (htail : E.Adds tail term leaf) {across : List F → F}
    {depth : ℕ} (hacross : E.Sums across lanes depth) (h : a.length = b.length) :
    E.Holds (leaf + a.length / (4 * lanes) + 2 + depth + a.length % (4 * lanes))
      (laneSum zero add f tail lanes across a b) (termSum term a b) := by
  have hchunks := holdsLanes_foldl hf h (Nat.div_mul_le_self a.length (4 * lanes))
  have hdeep (q : ℕ) : leaf ≤ leaf + q + 2 + depth := by omega
  have hrest := holds_foldl htail (hdeep _) (hchunks.reduce hacross)
    (a := remainder (4 * lanes) a) (b := remainder (4 * lanes) b)
    (by rw [remainder, remainder, List.length_drop, List.length_drop, h])
  have hlen : (remainder (4 * lanes) a).length = a.length % (4 * lanes) := by
    have := Nat.div_add_mod' a.length (4 * lanes)
    rw [remainder, List.length_drop]
    omega
  rw [hlen, remainder, remainder, ← h,
    ← termSum_append (by rw [List.length_take, List.length_take, h]), List.take_append_drop,
    List.take_append_drop] at hrest
  rw [Machinery.laneSum, zip_chunksExact h, remainder, remainder, ← h]
  exact hrest

end Estimate

end Machinery
