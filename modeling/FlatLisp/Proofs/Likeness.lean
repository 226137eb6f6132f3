import FlatLisp.Proofs.Doubles
import FlatLisp.Proofs.Subexpression

/-!
# Equality of Trees

Expressions are compared in two ways. At the root, by their heads and the number of their
children, and as whole trees, where the children are compared in turn. Atoms are compared as
programs see them, so that a number is compared as IEEE 754 has it: the two zeros are equal, and
what is not a number is not even equal to itself.

A node of a tree has a path: the places of the children that lead to it from the root. Two trees
are equal as whole trees if and only if they have nodes at the same paths, with heads that are both
absent or are equal atoms. In this form the recursion over the rows of children has gone, and the
laws of the equality are those of atoms, at each path.

## Main definitions

* `Expr.node?`: the node at a path.
* `Expr.SameShape`: two trees have nodes at the same paths.
* `Expr.Matches`: they have, with equal heads.

## Main results

* `Expr.deepAlike_eq`: whole trees are equal if they are at the root, and all pairs of children are.
* `Expr.deepAlike_iff_matches`: equality of whole trees, told by paths.
* `Expr.deepAlike_laws`: the laws of the equality of whole trees.
-/

namespace FlatLisp

/-- Two values that may be absent are related if both are absent, or both are there and related. -/
theorem optionRel_iff {α β : Type} {r : α → β → Prop} {x : Option α} {y : Option β} :
    Option.Rel r x y ↔ x.isSome = y.isSome ∧ ∀ a b, x = some a → y = some b → r a b := by
  constructor
  · rintro (h | _)
    · refine ⟨rfl, ?_⟩
      rintro _ _ ⟨⟩ ⟨⟩
      exact h
    · exact ⟨rfl, nofun⟩
  · rintro ⟨hsome, h⟩
    cases x <;> cases y
    · exact .none
    · cases hsome
    · cases hsome
    · exact .some (h _ _ rfl rfl)

/-- Two values that may be absent are related if they are the same, where a relation is the
identity. -/
theorem optionRel_iff_eq {α : Type} {r : α → α → Prop} {x y : Option α}
    (h : ∀ a b, x = some a → y = some b → (r a b ↔ a = b)) : Option.Rel r x y ↔ x = y := by
  cases x <;> cases y
  · exact iff_of_true .none rfl
  · exact iff_of_false nofun nofun
  · exact iff_of_false nofun nofun
  · constructor
    · rintro ⟨hr⟩
      exact congrArg some ((h _ _ rfl rfl).mp hr)
    · intro hsame
      exact .some ((h _ _ rfl rfl).mpr (Option.some.inj hsame))

/-! ### Atoms -/

namespace Atom

variable {a b c : Atom}

theorem alike_symm (h : a.alike b = true) : b.alike a = true := by
  cases a <;> cases b <;> simp only [alike, Bool.false_eq_true] at h ⊢
  · exact Double.beq_symm h
  · exact BEq.symm h
  · exact BEq.symm h

theorem alike_trans (h : a.alike b = true) (h' : b.alike c = true) : a.alike c = true := by
  cases a <;> cases b <;> simp only [alike, Bool.false_eq_true] at h
  all_goals cases c <;> simp only [alike, Bool.false_eq_true] at h' ⊢
  · exact Double.beq_trans h h'
  · exact BEq.trans h h'
  · exact BEq.trans h h'

/-- Only what is not a number is not alike to itself. -/
theorem alike_self_iff : a.alike a = true ↔ ∀ x, a = number x → x.isNaN = false := by
  cases a with
  | number x =>
      rw [alike, Double.beq_self_iff]
      exact ⟨fun h y hy => Atom.number.inj hy ▸ h, fun h => h x rfl⟩
  | boolean b => simp [alike]
  | symbol s => simp [alike]

end Atom

namespace Expr

/-! ### Nodes -/

/-- The node of a tree at a path, if there is one. -/
def node? (e : Expr) : List Nat → Option Expr
  | [] => some e
  | place :: path => e.children[place]?.bind fun c => c.node? path

theorem node?_cons (e : Expr) (place : Nat) (path : List Nat) :
    e.node? (place :: path) = e.children[place]?.bind fun c => c.node? path := rfl

/-- The nodes of a tree are what stands inside it. -/
theorem within_iff_exists_node? {c e : Expr} : Within c e ↔ ∃ path, e.node? path = some c := by
  constructor
  · intro h
    induction h with
    | refl => exact ⟨[], rfl⟩
    | child hmem _ ih =>
        obtain ⟨path, hpath⟩ := ih
        obtain ⟨place, hplace⟩ := List.mem_iff_getElem?.mp hmem
        refine ⟨place :: path, ?_⟩
        rw [node?_cons, hplace]
        exact hpath
  · rintro ⟨path, hpath⟩
    induction path generalizing e with
    | nil =>
        obtain rfl := Option.some.inj hpath
        exact .refl _
    | cons place path ih =>
        obtain ⟨d, hd, hpath⟩ := Option.bind_eq_some_iff.mp hpath
        exact (ih hpath).trans (Within.of_mem_children (List.mem_of_getElem? hd))

/-- Two trees have nodes at the same paths. -/
def SameShape (a b : Expr) : Prop :=
  ∀ path, (a.node? path).isSome = (b.node? path).isSome

/-- Two trees have nodes at the same paths, with heads that are alike. -/
def Matches (a b : Expr) : Prop :=
  ∀ path, Option.Rel (fun m n => headsAlike m.head n.head = true) (a.node? path) (b.node? path)

/-! ### Whole trees -/

/-- Heads are alike if both are absent, or both are there and are alike. -/
theorem headsAlike_iff {h k : Option Atom} :
    headsAlike h k = true ↔ Option.Rel (fun x y => x.alike y = true) h k := by
  constructor
  · intro hlike
    cases h <;> cases k
    · exact .none
    · cases hlike
    · cases hlike
    · exact .some hlike
  · rintro (hlike | _)
    · exact hlike
    · rfl

theorem headsAlike_symm {h k : Option Atom} (hlike : headsAlike h k = true) :
    headsAlike k h = true := by
  rw [headsAlike_iff] at hlike ⊢
  cases hlike with
  | some hlike => exact .some (Atom.alike_symm hlike)
  | none => exact .none

theorem headsAlike_trans {h k l : Option Atom} (hlike : headsAlike h k = true)
    (hlike' : headsAlike k l = true) : headsAlike h l = true := by
  rw [headsAlike_iff] at hlike hlike' ⊢
  cases hlike with
  | some hlike =>
      cases hlike' with
      | some hlike' => exact .some (Atom.alike_trans hlike hlike')
  | none => exact hlike'

/-- Two rows of trees are equal if they are equally long, and all pairs of their trees are equal. -/
theorem deepAlikeEach_eq (cs ds : List Expr) :
    deepAlikeEach cs ds =
      (cs.length == ds.length && (cs.zip ds).all fun p => p.1.deepAlike p.2) := by
  induction cs generalizing ds with
  | nil => cases ds <;> rfl
  | cons c cs ih =>
      cases ds with
      | nil => rfl
      | cons d ds =>
          have hlength : ((c :: cs).length == (d :: ds).length) = (cs.length == ds.length) := by
            simp
          rw [deepAlikeEach, ih, hlength, List.zip_cons_cons, List.all_cons, Bool.and_left_comm]

/-- Whole trees are equal if they are equal at the root, and all pairs of children are equal. -/
theorem deepAlike_eq (a b : Expr) :
    a.deepAlike b = (a.alike b && (a.children.zip b.children).all fun p => p.1.deepAlike p.2) := by
  obtain ⟨h, cs⟩ := a
  obtain ⟨k, ds⟩ := b
  rw [deepAlike, deepAlikeEach_eq, alike, Bool.and_assoc]

/-- Two rows of trees are equal if at each place they have equal trees, or none. -/
theorem deepAlikeEach_iff {cs ds : List Expr} :
    deepAlikeEach cs ds = true ↔
      ∀ place : Nat, Option.Rel (fun c d : Expr => c.deepAlike d = true) cs[place]? ds[place]? := by
  induction cs generalizing ds with
  | nil =>
      cases ds with
      | nil => exact iff_of_true rfl fun _ => .none
      | cons d ds =>
          refine iff_of_false Bool.false_ne_true fun h => ?_
          cases h 0
  | cons c cs ih =>
      cases ds with
      | nil =>
          refine iff_of_false Bool.false_ne_true fun h => ?_
          cases h 0
      | cons d ds =>
          rw [deepAlikeEach, Bool.and_eq_true, ih]
          constructor
          · rintro ⟨hfirst, hrest⟩ place
            cases place with
            | zero => exact .some hfirst
            | succ place => exact hrest place
          · intro h
            refine ⟨?_, fun place => h (place + 1)⟩
            cases h 0 with
            | some hfirst => exact hfirst

theorem deepAlike_iff {a b : Expr} :
    a.deepAlike b = true ↔ headsAlike a.head b.head = true ∧
      ∀ place : Nat, Option.Rel (fun c d : Expr => c.deepAlike d = true)
        a.children[place]? b.children[place]? := by
  obtain ⟨h, cs⟩ := a
  obtain ⟨k, ds⟩ := b
  rw [deepAlike, Bool.and_eq_true, deepAlikeEach_iff]

/-- Below two places, nodes correspond at all paths if the trees there match, or no trees are
there. -/
theorem forall_rel_node?_iff {x y : Option Expr} :
    (∀ path, Option.Rel (fun m n => headsAlike m.head n.head = true)
      (x.bind fun c => c.node? path) (y.bind fun d => d.node? path)) ↔ Option.Rel Matches x y := by
  constructor
  · intro h
    cases x <;> cases y
    · exact .none
    · cases h []
    · cases h []
    · exact .some h
  · rintro (h | _) path
    · exact h path
    · exact .none

/-- Trees match if their heads do, and the children at each place. -/
theorem matches_iff {a b : Expr} :
    a.Matches b ↔ headsAlike a.head b.head = true ∧
      ∀ place : Nat, Option.Rel Matches a.children[place]? b.children[place]? := by
  simp only [← forall_rel_node?_iff]
  constructor
  · intro h
    refine ⟨?_, fun place path => h (place :: path)⟩
    cases h [] with
    | some hhead => exact hhead
  · rintro ⟨hhead, hchildren⟩ path
    cases path with
    | nil => exact .some hhead
    | cons place path => exact hchildren place path

/-- **Equality of whole trees, told by paths**: they have nodes at the same paths, with heads that
are alike. -/
theorem deepAlike_iff_matches {a b : Expr} : a.deepAlike b = true ↔ a.Matches b := by
  induction a using Expr.induction generalizing b with
  | node head children ih =>
      -- Both sides unfold to a condition on the heads and one on each pair of children.
      rw [deepAlike_iff, matches_iff]
      refine and_congr_right fun _ => forall_congr' fun place => ?_
      rw [optionRel_iff, optionRel_iff]
      refine and_congr_right fun _ => forall₄_congr fun c d hc _ => ?_
      exact ih c (List.mem_of_getElem? hc)

/-- Trees match if they have the same shape, and the heads of corresponding nodes are alike. -/
theorem matches_iff_sameShape {a b : Expr} :
    a.Matches b ↔ a.SameShape b ∧ ∀ path m n, a.node? path = some m → b.node? path = some n →
      Option.Rel (fun x y => x.alike y = true) m.head n.head := by
  simp only [Matches, SameShape, optionRel_iff, forall_and, headsAlike_iff]

/-! ### The laws -/

section

variable {a b c : Expr}

theorem Matches.symm (h : a.Matches b) : b.Matches a := by
  intro path
  obtain ⟨hsome, hheads⟩ := optionRel_iff.mp (h path)
  exact optionRel_iff.mpr ⟨hsome.symm, fun n m hn hm => headsAlike_symm (hheads m n hm hn)⟩

theorem Matches.trans (h : a.Matches b) (h' : b.Matches c) : a.Matches c := by
  intro path
  obtain ⟨hsome, hheads⟩ := optionRel_iff.mp (h path)
  obtain ⟨hsome', hheads'⟩ := optionRel_iff.mp (h' path)
  refine optionRel_iff.mpr ⟨hsome.trans hsome', fun m l hm hl => ?_⟩
  have hnode : (b.node? path).isSome = true := by rw [hsome', hl, Option.isSome_some]
  obtain ⟨n, hn⟩ := Option.isSome_iff_exists.mp hnode
  exact headsAlike_trans (hheads m n hm hn) (hheads' n l hn hl)

/-- A tree matches itself if every number in it is one. -/
theorem matches_self_iff :
    a.Matches a ↔ ∀ x children, Within ⟨some (.number x), children⟩ a → x.isNaN = false := by
  constructor
  · intro h x children hwithin
    obtain ⟨path, hpath⟩ := within_iff_exists_node?.mp hwithin
    have hhead : (Atom.number x).alike (.number x) = true :=
      (optionRel_iff.mp (h path)).2 _ _ hpath hpath
    exact Atom.alike_self_iff.mp hhead x rfl
  · intro h path
    refine optionRel_iff.mpr ⟨rfl, fun m n hm hn => ?_⟩
    obtain rfl := Option.some.inj (hm.symm.trans hn)
    obtain ⟨_ | atom, children⟩ := m
    · rfl
    · refine Atom.alike_self_iff.mpr fun x hx => ?_
      exact h x children (within_iff_exists_node?.mpr ⟨path, hx ▸ hm⟩)

/-- **The laws of the equality of whole trees.** It is symmetric and transitive. A tree is equal to
itself if and only if no node of it is a number that is none. Two trees are equal if and only if
they have the same shape, and the heads of corresponding nodes are both absent or are equal atoms.
Equal trees are equal at the root, and each child of the one is equal to the child of the other at
the same place. -/
theorem deepAlike_laws (a b c : Expr) :
    (a.deepAlike b = true → b.deepAlike a = true) ∧
    (a.deepAlike b = true → b.deepAlike c = true → a.deepAlike c = true) ∧
    (a.deepAlike a = true ↔
      ∀ x children, Within ⟨some (.number x), children⟩ a → x.isNaN = false) ∧
    (a.deepAlike b = true ↔ a.SameShape b ∧
      ∀ path m n, a.node? path = some m → b.node? path = some n →
        Option.Rel (fun x y => x.alike y = true) m.head n.head) ∧
    (a.deepAlike b = true → a.alike b = true ∧
      ∀ (place : Nat) (d : Expr), a.children[place]? = some d →
        ∃ e, b.children[place]? = some e ∧ d.deepAlike e = true) := by
  refine ⟨?_, ?_, ?_, ?_, fun h => ⟨?_, fun place d hd => ?_⟩⟩
  · rw [deepAlike_iff_matches, deepAlike_iff_matches]
    exact Matches.symm
  · rw [deepAlike_iff_matches, deepAlike_iff_matches, deepAlike_iff_matches]
    exact Matches.trans
  · rw [deepAlike_iff_matches, matches_self_iff]
  · rw [deepAlike_iff_matches, matches_iff_sameShape]
  · rw [deepAlike_eq, Bool.and_eq_true] at h
    exact h.1
  · have hplace := (deepAlike_iff.mp h).2 place
    rw [hd] at hplace
    generalize b.children[place]? = e at hplace
    cases hplace with
    | some hchild => exact ⟨_, rfl, hchild⟩

/-- Trees that are equal at the root need not be equal below it. -/
example :
    let a : Expr := ⟨some (.symbol "not"), [.leaf (.boolean true)]⟩
    let b : Expr := ⟨some (.symbol "not"), [.leaf (.boolean false)]⟩
    a.alike b = true ∧ a.deepAlike b = false := by decide

end

end Expr

end FlatLisp
