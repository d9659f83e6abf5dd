/-
Groups of binders.

A group `(x y : T)`, or a single bare group `x y : T`, stands for a group of
each name.  Binders open with `∀` or `fun` and close with a comma or `=>`, as
parentheses do, so the end of a type is found without reading it.

* `splitGroups` — the tokens with a group of its own for each binder;
* `Regroups` — tokens that can be split apart from what follows them, closed
  under the ways of putting tokens together.
-/
import Pinpoint.Proofs.Grammar

namespace Pinpoint.Surface

/-- The token that closes what a token opens. -/
def TokenKind.closing? : TokenKind → Option TokenKind
  | .lparen => some .rparen
  | .all => some .comma
  | .lam => some .fatArrow
  | _ => none

/-- The tokens up to the one that closes all that is open, the innermost first,
and those after it. -/
def splitClosing : List TokenKind → List TokenKind → List TokenKind × List TokenKind
  | [], ks => ([], ks)
  | _ :: _, [] => ([], [])
  | close :: outer, k :: ks =>
    if k = close then
      let (inside, rest) := splitClosing outer ks
      (if outer = [] then inside else k :: inside, rest)
    else
      let (inside, rest) := splitClosing (k.closing?.toList ++ close :: outer) ks
      (k :: inside, rest)

theorem splitClosing_length (opened ks : List TokenKind) :
    (splitClosing opened ks).1.length + (splitClosing opened ks).2.length ≤ ks.length := by
  fun_induction splitClosing opened ks with
  | case1 => simp
  | case2 => simp
  | case3 close outer ks inside rest heq ih =>
    rw [heq] at ih
    split <;> simp at ih ⊢ <;> omega
  | case4 close outer k ks hk inside rest heq ih =>
    rw [heq] at ih
    simp at ih ⊢
    omega

mutual

/-- The tokens with a group of its own for each binder. -/
def splitGroups : List TokenKind → List TokenKind
  | [] => []
  | k :: ks =>
    if k = .all ∨ k = .lam then
      k :: (splitBinders (splitClosing k.closing?.toList ks).1 ++ k.closing?.toList ++
        splitGroups (splitClosing k.closing?.toList ks).2)
    else k :: splitGroups ks
termination_by ks => (ks.length, 0)
decreasing_by
  · have := splitClosing_length k.closing?.toList ks
    exact Prod.Lex.left _ _ (by simp; omega)
  · have := splitClosing_length k.closing?.toList ks
    exact Prod.Lex.left _ _ (by simp; omega)
  · exact Prod.Lex.left _ _ (by simp)

/-- The same inside binders: groups in parentheses, or one bare group. -/
def splitBinders : List TokenKind → List TokenKind
  | .lparen :: ks =>
    splitGroup (splitClosing [.rparen] ks).1 ++ splitBinders (splitClosing [.rparen] ks).2
  | ks => splitGroup ks
termination_by ks => (ks.length, 2)
decreasing_by
  · have := splitClosing_length [.rparen] ks
    exact Prod.Lex.left _ _ (by simp; omega)
  · have := splitClosing_length [.rparen] ks
    exact Prod.Lex.left _ _ (by simp; omega)
  · exact Prod.Lex.right _ (by omega)

/-- A group for each name of a group; what follows the names is a colon and
their type. -/
def splitGroup (ks : List TokenKind) : List TokenKind :=
  (ks.takeWhile TokenKind.isName).flatMap fun name =>
    .lparen :: name :: (splitGroups (ks.dropWhile TokenKind.isName) ++ [.rparen])
termination_by (ks.length, 1)
decreasing_by
  have := (List.dropWhile_sublist TokenKind.isName (l := ks)).length_le
  rcases Nat.lt_or_eq_of_le this with h | h
  · exact Prod.Lex.left _ _ h
  · rw [h]
    exact Prod.Lex.right _ (by omega)

end

/-! ### Tokens that can be split on their own -/

/-- Whether a token closes something. -/
def TokenKind.isClosing : TokenKind → Bool
  | .rparen | .comma | .fatArrow => true
  | _ => false

/-- Whether some tokens close all that they open. -/
def Balanced (ks : List TokenKind) : Prop :=
  ∀ close outer rest, close.isClosing → splitClosing (close :: outer) (ks ++ rest) =
    (ks ++ (splitClosing (close :: outer) rest).1, (splitClosing (close :: outer) rest).2)

/-- Whether some tokens, with their groups split, are `out`, whatever follows
them; the end of the text is not among them. -/
structure Regroups (ks out : List TokenKind) : Prop where
  balanced : Balanced ks
  splits : ∀ rest, splitGroups (ks ++ rest) = out ++ splitGroups rest
  noEnd : .eof ∉ ks

variable {ks ks' out out' : List TokenKind} {k close : TokenKind}

theorem balanced_nil : Balanced [] := fun _ _ _ _ => rfl

theorem Balanced.append (h : Balanced ks) (h' : Balanced ks') : Balanced (ks ++ ks') := by
  intro close outer rest hclose
  rw [List.append_assoc, h _ _ _ hclose, h' _ _ _ hclose, List.append_assoc]

/-- A token that neither opens nor closes anything. -/
theorem balanced_singleton (hopen : k.closing? = none) (hclosing : k.isClosing = false) :
    Balanced [k] := by
  intro close outer rest hclose
  have hne : k ≠ close := by
    rintro rfl
    exact absurd (hclosing.symm.trans hclose) (by decide)
  rw [List.singleton_append, splitClosing, if_neg hne, hopen]
  rfl

/-- The tokens between two that belong together are split off. -/
theorem Balanced.splitClosing (h : Balanced ks) (hclose : close.isClosing)
    (rest : List TokenKind) : splitClosing [close] (ks ++ close :: rest) = (ks, rest) := by
  rw [h _ _ _ hclose, Surface.splitClosing, if_pos rfl]
  simp [Surface.splitClosing]

theorem isClosing_of_closing? (h : k.closing? = some close) : close.isClosing := by
  cases k <;> cases h <;> rfl

/-- Tokens between two that belong together. -/
theorem Balanced.enclose (h : Balanced ks) (hk : k.closing? = some close) :
    Balanced (k :: (ks ++ [close])) := by
  intro c outer rest hc
  have hclose := isClosing_of_closing? hk
  have hne : k ≠ c := by
    rintro rfl
    cases k <;> cases hk <;> cases hc
  rw [List.cons_append, Surface.splitClosing, if_neg hne, hk, List.append_assoc,
    List.singleton_append]
  have hsplit := h close (c :: outer) (close :: rest) hclose
  rw [Option.toList_some, List.singleton_append, hsplit, Surface.splitClosing, if_pos rfl]
  simp

theorem Regroups.append (h : Regroups ks out) (h' : Regroups ks' out') :
    Regroups (ks ++ ks') (out ++ out') where
  balanced := h.balanced.append h'.balanced
  splits rest := by rw [List.append_assoc, h.splits, h'.splits, List.append_assoc]
  noEnd hmem := (List.mem_append.mp hmem).elim h.noEnd h'.noEnd

theorem splitGroups_cons (hk : ¬(k = .all ∨ k = .lam)) (rest : List TokenKind) :
    splitGroups (k :: rest) = k :: splitGroups rest := by
  rw [splitGroups, if_neg hk]

theorem regroups_singleton (hopen : k.closing? = none) (hclosing : k.isClosing = false)
    (hend : k ≠ .eof) : Regroups [k] [k] where
  balanced := balanced_singleton hopen hclosing
  splits rest := by
    refine splitGroups_cons ?_ rest
    rintro (rfl | rfl) <;> cases hopen
  noEnd hmem := hend (List.mem_singleton.mp hmem).symm

theorem Regroups.paren (h : Regroups ks out) :
    Regroups (.lparen :: (ks ++ [.rparen])) (.lparen :: (out ++ [.rparen])) where
  balanced := h.balanced.enclose rfl
  splits rest := by
    rw [List.cons_append, splitGroups_cons (by decide), List.append_assoc, h.splits,
      List.singleton_append, splitGroups_cons (by decide)]
    simp
  noEnd hmem := by simp [h.noEnd] at hmem

/-! ### Binders -/

/-- Whether the tokens of binders, with their groups split, are `out`. -/
structure RegroupsBinders (ks out : List TokenKind) : Prop where
  balanced : Balanced ks
  splits : splitBinders ks = out
  noEnd : .eof ∉ ks

/-- Binders between the sign before them and the one after them, and what
follows. -/
theorem RegroupsBinders.scope (h : RegroupsBinders ks out) (hk : k = .all ∨ k = .lam)
    (hclose : k.closing? = some close) (h' : Regroups ks' out') :
    Regroups (k :: (ks ++ close :: ks')) (k :: (out ++ close :: out')) where
  balanced := by
    have := (h.balanced.enclose hclose).append h'.balanced
    simpa using this
  splits rest := by
    rw [List.cons_append, List.append_assoc, List.cons_append, splitGroups, if_pos hk, hclose,
      Option.toList_some, h.balanced.splitClosing (isClosing_of_closing? hclose)]
    simp [h.splits, h'.splits]
  noEnd hmem := by
    have := isClosing_of_closing? hclose
    have hne : .eof ≠ close := by
      rintro rfl
      cases this
    rcases hk with rfl | rfl <;> simp [h.noEnd, h'.noEnd, hne] at hmem

theorem balanced_names {names : List TokenKind} (h : ∀ k ∈ names, k.isName) : Balanced names := by
  induction names with
  | nil => exact balanced_nil
  | cons k names ih =>
    have hk := h k List.mem_cons_self
    have hsingle : Balanced [k] := by
      refine balanced_singleton ?_ ?_
      · cases k <;> first | rfl | cases hk
      · cases k <;> first | rfl | cases hk
    exact hsingle.append (ih fun k hk => h k (List.mem_cons_of_mem _ hk))

/-- The groups of the names of one group. -/
def groupsOf (names type : List TokenKind) : List TokenKind :=
  names.flatMap fun name => .lparen :: name :: .colon :: (type ++ [.rparen])

theorem splitGroup_names {names : List TokenKind} (hnames : ∀ k ∈ names, k.isName)
    (htype : Regroups ks out) : splitGroup (names ++ .colon :: ks) = groupsOf names out := by
  have htake : (names ++ .colon :: ks).takeWhile TokenKind.isName = names := by
    rw [List.takeWhile_append_of_pos hnames]
    simp [TokenKind.isName]
  have hdrop : (names ++ .colon :: ks).dropWhile TokenKind.isName = .colon :: ks := by
    rw [List.dropWhile_append_of_pos hnames]
    simp [TokenKind.isName]
  have hsplit := htype.splits []
  rw [List.append_nil] at hsplit
  rw [splitGroup, htake, hdrop, splitGroups_cons (by decide), hsplit]
  simp [groupsOf, splitGroups]

theorem balanced_group {names : List TokenKind} (hnames : ∀ k ∈ names, k.isName)
    (htype : Balanced ks) : Balanced (names ++ .colon :: ks) :=
  have hcolon : Balanced [.colon] := balanced_singleton rfl rfl
  (balanced_names hnames).append (hcolon.append htype)

/-- A single group without parentheses. -/
theorem regroupsBinders_bare {names : List TokenKind} (hnames : ∀ k ∈ names, k.isName)
    (hne : names ≠ []) (htype : Regroups ks out) :
    RegroupsBinders (names ++ .colon :: ks) (groupsOf names out) where
  balanced := balanced_group hnames htype.balanced
  splits := by
    rw [← splitGroup_names hnames htype]
    cases names with
    | nil => exact absurd rfl hne
    | cons k names =>
      have hk := hnames k List.mem_cons_self
      rw [List.cons_append, splitBinders]
      rintro ks' ⟨⟩
      cases hk
  noEnd hmem := by
    simp [htype.noEnd] at hmem
    exact nomatch hnames _ hmem

theorem regroupsBinders_nil : RegroupsBinders [] [] where
  balanced := balanced_nil
  splits := by
    rw [splitBinders]
    · simp [splitGroup]
    · simp
  noEnd := by simp

/-- A group in parentheses before others. -/
theorem RegroupsBinders.cons {names : List TokenKind} (hnames : ∀ k ∈ names, k.isName)
    (htype : Regroups ks out) (h : RegroupsBinders ks' out') :
    RegroupsBinders (.lparen :: (names ++ .colon :: ks) ++ .rparen :: ks')
      (groupsOf names out ++ out') where
  balanced := by
    have := ((balanced_group hnames htype.balanced).enclose (k := .lparen) rfl).append h.balanced
    simpa using this
  splits := by
    rw [List.cons_append, splitBinders, (balanced_group hnames htype.balanced).splitClosing rfl,
      splitGroup_names hnames htype, h.splits]
  noEnd hmem := by
    simp [htype.noEnd, h.noEnd] at hmem
    exact nomatch hnames _ hmem

end Pinpoint.Surface
