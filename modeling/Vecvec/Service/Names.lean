import Vecvec.Machinery.FileTree

/-!
# Service/Names — collection names as paths

A collection's directory is `collections_dir().join(name)`, whatever the name: its text is cut into
components at the slashes, and an absolute name replaces the directory it is joined to.  Only a
**plain** name is a single component and comes back from a directory listing as it went in.
-/

namespace Vecvec

open Machinery

/-- The pieces of a path's text between its slashes. -/
def pieces (s : String) : List (List Char) := (s.toList.splitOnP (· == '/')).filter (· ≠ [])

/-- The components of a path's text (`Path::components`). -/
def components (s : String) : List (Component String) :=
  (pieces s).filterMap fun cs =>
    if cs = ['.'] then none else if cs = ['.', '.'] then some .up
    else some (.name (String.ofList cs))

/-- `Path::join`, with a name as the client gave it. -/
def joinName (base : PathBuf String) (name : String) : PathBuf String where
  steps := (if name.toList.head? = some '/' then [] else base.steps) ++ components name
  dot := (pieces name).getLast? = some ['.']

/-- A name that is one component of a path. -/
structure Plain (name : String) : Prop where
  ne_empty : name.toList ≠ []
  ne_dot : name.toList ≠ ['.']
  ne_dots : name.toList ≠ ['.', '.']
  no_slash : '/' ∉ name.toList

instance : DecidablePred Plain := fun name =>
  decidable_of_iff (name.toList ≠ [] ∧ name.toList ≠ ['.'] ∧ name.toList ≠ ['.', '.'] ∧
    '/' ∉ name.toList)
    ⟨fun ⟨h₁, h₂, h₃, h₄⟩ => ⟨h₁, h₂, h₃, h₄⟩, fun ⟨h₁, h₂, h₃, h₄⟩ => ⟨h₁, h₂, h₃, h₄⟩⟩

variable {name : String}

theorem Plain.pieces (h : Plain name) : pieces name = [name.toList] := by
  have hsplit : name.toList.splitOnP (· == '/') = [name.toList] :=
    List.splitOnP_eq_singleton fun c hc => by
      simpa using fun heq : c = '/' => h.no_slash (heq ▸ hc)
  rw [Vecvec.pieces, hsplit, List.filter_cons_of_pos (by simpa using h.ne_empty), List.filter_nil]

theorem Plain.components (h : Plain name) : components name = [.name name] := by
  simp [Vecvec.components, h.pieces, h.ne_dot, h.ne_dots]

/-- **A plain name is joined as an entry.** -/
theorem Plain.joinName (h : Plain name) (base : PathBuf String) :
    joinName base name = base.join name := by
  have hhead : name.toList.head? ≠ some '/' := fun heq => h.no_slash (List.mem_of_mem_head? heq)
  simp [Vecvec.joinName, PathBuf.join, hhead, h.components, h.pieces, h.ne_dot]

end Vecvec
