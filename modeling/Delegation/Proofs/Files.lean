import Delegation.Files.Tree

/-!
This module contains what becomes of a tree when a file in it gets a new text: all paths lead where
they led before, and no other file changes.
-/

namespace Delegation.FileTree

/--
Whether `t'` is `t` with `text` in the file at `place`.
-/
def Replaces (t t' : FileTree) (place : List String) (text : String) : Prop :=
  t'.workingDirectory = t.workingDirectory
    ∧ ∀ other, t'.node? other = if other = place then some (.file text.toUTF8) else t.node? other

theorem lookup_filter_ne (nodes : List (List String × FileNode)) (place other : List String) :
    (nodes.filter (·.1 != place)).lookup other
      = if other = place then none else nodes.lookup other := by
  induction nodes with
  | nil => simp
  | cons node nodes ih =>
    obtain ⟨key, node⟩ := node
    rw [List.filter_cons]
    by_cases hkey : key = place
    . subst hkey
      rw [if_neg (by simp), ih, List.lookup_cons]
      by_cases hother : other = key
      . rw [if_pos hother, if_pos hother]
      . rw [if_neg hother, if_neg hother, beq_eq_false_iff_ne.mpr hother]
    . rw [if_pos (by simpa using hkey), List.lookup_cons, List.lookup_cons, ih]
      by_cases hother : other = key
      . simp only [hother, beq_self_eq_true, if_neg hkey]
      . rw [beq_eq_false_iff_ne.mpr hother]

theorem node?_putNode (t : FileTree) {place : List String} (hplace : place ≠ []) (node : FileNode)
    (other : List String) :
    (t.putNode place node).node? other = if other = place then some node else t.node? other := by
  unfold node? putNode
  dsimp only
  rw [List.lookup_cons, lookup_filter_ne]
  by_cases hother : other = place
  . simp [hother, hplace]
  . rw [if_neg hother, if_neg hother, beq_eq_false_iff_ne.mpr hother]

theorem fromUTF8?_toUTF8 (text : String) : String.fromUTF8? text.toUTF8 = some text := by
  unfold String.fromUTF8?
  exact dif_pos text.isValidUTF8

theorem read_eq_ok {t : FileTree} {path text : String} (h : t.read path = .ok text) :
    ∃ place contents, t.locate path = .ok place ∧ t.node? place = some (.file contents)
      ∧ ∀ new, t.replace path new = .ok (t.putNode place (.file new.toUTF8)) := by
  unfold read at h
  unfold replace
  cases hplace : t.locate path with
  | error e =>
    rw [hplace] at h
    cases h
  | ok place =>
    rw [hplace] at h
    cases hnode : t.node? place with
    | none => simp [bind, Except.bind, hnode] at h
    | some node =>
      cases node with
      | directory => simp [bind, Except.bind, hnode] at h
      | file contents =>
        exact ⟨place, contents, rfl, hnode, fun new => by simp [bind, Except.bind, hnode, pure, Except.pure]⟩

theorem replaces_putNode {t : FileTree} {place : List String} {contents : ByteArray}
    (hnode : t.node? place = some (.file contents)) (text : String) :
    t.Replaces (t.putNode place (.file text.toUTF8)) place text := by
  have hplace : place ≠ [] := by
    rintro rfl
    cases hnode
  exact ⟨rfl, t.node?_putNode hplace _⟩

namespace Replaces

variable {t t' : FileTree} {place : List String} {contents : ByteArray} {text : String}

theorem isDirectory_eq (h : t.Replaces t' place text)
    (hnode : t.node? place = some (.file contents)) (other : List String) :
    (t'.node? other).map FileNode.isDirectory = (t.node? other).map FileNode.isDirectory := by
  rw [h.2]
  split
  . next hother =>
    rw [hother, hnode]
    rfl
  . rfl

theorem follow_eq (h : t.Replaces t' place text) (hnode : t.node? place = some (.file contents))
    (from' : List String) (names : List String) : t'.follow from' names = t.follow from' names := by
  induction names generalizing from' with
  | nil => rfl
  | cons name names ih =>
    have hfrom := h.isDirectory_eq hnode from'
    have hnext := h.isDirectory_eq hnode (from' ++ [name])
    unfold follow
    cases hold : t.node? from' with
    | none =>
      rw [hold] at hfrom
      rw [Option.map_eq_none_iff.mp hfrom]
    | some node =>
      rw [hold] at hfrom
      obtain ⟨node', hnew, hkind⟩ := Option.map_eq_some_iff.mp hfrom
      rw [hnew]
      cases node <;> cases node' <;> cases hkind
      . rfl
      . dsimp only
        rw [← Option.isNone_map (f := FileNode.isDirectory), hnext, Option.isNone_map, ih, ih, ih]

theorem locate_eq (h : t.Replaces t' place text) (hnode : t.node? place = some (.file contents))
    (path : String) : t'.locate path = t.locate path := by
  unfold locate
  rw [h.1, h.follow_eq hnode]

theorem read_eq_text (h : t.Replaces t' place text) (hnode : t.node? place = some (.file contents))
    {path : String} (hpath : t.locate path = .ok place) : t'.read path = .ok text := by
  unfold read
  rw [h.locate_eq hnode, hpath]
  simp only [bind, Except.bind]
  rw [h.2, if_pos rfl]
  dsimp only
  rw [fromUTF8?_toUTF8]
  rfl

theorem read_eq (h : t.Replaces t' place text) (hnode : t.node? place = some (.file contents))
    {path : String} (hpath : t.locate path ≠ .ok place) : t'.read path = t.read path := by
  unfold read
  rw [h.locate_eq hnode]
  cases hother : t.locate path with
  | error e => rfl
  | ok other =>
    simp only [bind, Except.bind]
    rw [h.2, if_neg]
    rintro rfl
    exact hpath hother

end Replaces
end Delegation.FileTree
