/-
Names read and written.

A name that a text spells is spelled by what is written for it, which may differ
in the zeros before a number.  The names of bound variables are single words, and
different for different numbers of binders.

* `splitAt_intercalate` — pieces put together are taken apart again;
* `ofString_render` — a name that is read is read from what is written for it;
* `render_binderName`, `binderName_injective` — the names of bound variables.
-/
import Pinpoint.Proofs.Spelling

namespace Pinpoint

namespace Text

/-- A piece without the separator, in front of a text. -/
theorem splitAt_append {sep : Char} {piece : List Char} (h : sep ∉ piece) (cs : List Char) :
    splitAt sep (piece ++ cs) =
      match splitAt sep cs with
      | first :: rest => (piece ++ first) :: rest
      | [] => [piece] := by
  induction piece with
  | nil =>
    rw [List.nil_append]
    cases hcs : splitAt sep cs with
    | cons first rest => rfl
    | nil => cases cs <;> simp only [splitAt] at hcs <;> grind
  | cons c piece ih =>
    obtain ⟨hc, hpiece⟩ := not_or.mp (mt List.mem_cons.mpr h)
    rw [List.cons_append, splitAt, if_neg (Ne.symm hc), ih hpiece]
    cases splitAt sep cs <;> rfl

theorem splitAt_of_not_mem {sep : Char} {piece : List Char} (h : sep ∉ piece) :
    splitAt sep piece = [piece] := by
  simpa [splitAt] using splitAt_append h []

/-- Pieces without the separator are found again. -/
theorem splitAt_intercalate {sep : Char} {piece : List Char} {pieces : List (List Char)}
    (h : ∀ p ∈ piece :: pieces, sep ∉ p) :
    splitAt sep ([sep].intercalate (piece :: pieces)) = piece :: pieces := by
  induction pieces generalizing piece with
  | nil => simpa [List.intercalate] using splitAt_of_not_mem (h piece List.mem_cons_self)
  | cons p pieces ih =>
    obtain ⟨hpiece, hpieces⟩ := List.forall_mem_cons.mp h
    rw [List.intercalate_cons_cons, List.append_assoc, splitAt_append hpiece,
      List.singleton_append, splitAt, if_pos rfl, ih hpieces]
    simp only [List.append_nil]

theorem not_mem_of_mem_splitAt {sep : Char} {piece cs : List Char} (h : piece ∈ splitAt sep cs) :
    sep ∉ piece := by
  induction cs generalizing piece with
  | nil =>
    rw [List.mem_singleton.mp h]
    exact List.not_mem_nil
  | cons c cs ih =>
    rw [splitAt] at h
    split at h
    · rcases List.mem_cons.mp h with rfl | h
      · exact List.not_mem_nil
      · exact ih h
    · rename_i hc
      cases hcs : splitAt sep cs with
      | nil =>
        rw [hcs, List.mem_singleton] at h
        simpa [h] using Ne.symm hc
      | cons first rest =>
        rw [hcs] at h ih
        rcases List.mem_cons.mp h with rfl | h
        · simpa using ⟨Ne.symm hc, ih List.mem_cons_self⟩
        · exact ih (List.mem_cons_of_mem _ h)

theorem splitAt_ne_nil (sep : Char) (cs : List Char) : splitAt sep cs ≠ [] := by
  cases cs with
  | nil => exact List.cons_ne_nil _ _
  | cons c cs =>
    rw [splitAt]
    split
    · exact List.cons_ne_nil _ _
    · split <;> exact List.cons_ne_nil _ _

theorem eq_nil_of_splitAt {sep : Char} {cs : List Char} (h : splitAt sep cs = [[]]) : cs = [] := by
  cases cs with
  | nil => rfl
  | cons c cs =>
    rw [splitAt] at h
    split at h
    · exact absurd (List.cons.inj h).2 (splitAt_ne_nil sep cs)
    · split at h <;> cases h

end Text

namespace NamePart

/-- A number is written in digits. -/
theorem toList_render_num (n : UInt64) : (render (.num n)).toList = Nat.toDigits 10 n.toNat := by
  rw [render, Nat.toString_eq_ofList_toDigits, String.toList_ofList]

/-- A component is read from what is written for it. -/
theorem ofChars_render (cs : List Char) : ofChars (ofChars cs).render.toList = ofChars cs := by
  cases h : Text.Numeral.parse? UInt64.size cs with
  | none =>
    have hstr : ofChars cs = .str (String.ofList cs) := by rw [ofChars, h]
    rw [hstr, render, String.toList_ofList, hstr]
  | some n =>
    have hnum : ofChars cs = .num (UInt64.ofNat n) := by rw [ofChars, h]
    have hdigits := Surface.digits?_toDigits (UInt64.ofNat n).toNat_lt
    have hparse : Text.Numeral.parse? UInt64.size (Nat.toDigits 10 (UInt64.ofNat n).toNat) =
        some (UInt64.ofNat n).toNat := by
      rw [Text.Numeral.parse?]
      · exact hdigits
      · rintro ds heq
        have := Nat.isDigit_of_mem_toDigits (b := 10) (c := '+') (n := (UInt64.ofNat n).toNat)
          (by decide) (by decide) (heq ▸ List.mem_cons_self)
        cases this
    rw [hnum, toList_render_num, ofChars, hparse]
    exact congrArg num (UInt64.ofNat_toNat)

theorem eq_nil_of_render {cs : List Char} (h : (ofChars cs).render.toList = []) : cs = [] := by
  have hread := ofChars_render cs
  rw [h] at hread
  have hempty : ofChars [] = .str "" := rfl
  rw [hempty, ofChars] at hread
  split at hread
  · cases hread
  · simpa using (str.inj hread).symm

theorem not_mem_render {cs : List Char} (h : '.' ∉ cs) : '.' ∉ (ofChars cs).render.toList := by
  rw [ofChars]
  split
  · rw [toList_render_num]
    intro hmem
    have := Nat.isDigit_of_mem_toDigits (b := 10) (by decide) (by decide) hmem
    cases this
  · rwa [render, String.toList_ofList]

end NamePart

namespace Name

theorem ofString_of_ne_nil {s : String} (h : s.toList ≠ []) :
    ofString s = ⟨(Text.splitAt '.' s.toList).map NamePart.ofChars⟩ := by
  cases hs : s.toList with
  | nil => exact absurd hs h
  | cons c cs => rw [ofString, hs]

/-- What is written for a name has the pieces that are written for those it was read
from. -/
theorem splitAt_render {s : String} (h : s.toList ≠ []) :
    Text.splitAt '.' (ofString s).render.toList =
      (Text.splitAt '.' s.toList).map fun piece => (NamePart.ofChars piece).render.toList := by
  obtain ⟨first, rest, hpieces⟩ := List.exists_cons_of_ne_nil (Text.splitAt_ne_nil '.' s.toList)
  have hdot : ∀ p ∈ (first :: rest).map fun piece => (NamePart.ofChars piece).render.toList,
      '.' ∉ p := by
    intro p hp
    obtain ⟨q, hq, rfl⟩ := List.mem_map.mp hp
    exact NamePart.not_mem_render (Text.not_mem_of_mem_splitAt (hpieces ▸ hq))
  have hrender : (ofString s).render.toList = ['.'].intercalate
      ((first :: rest).map fun piece => (NamePart.ofChars piece).render.toList) := by
    rw [ofString_of_ne_nil h, render, hpieces]
    simp only [isAnonymous, List.map_cons, List.isEmpty_cons, Bool.false_eq_true, if_false,
      String.toList_intercalate, List.map_map]
    rfl
  rw [hrender, hpieces]
  exact Text.splitAt_intercalate hdot

/-- A name that a text spells is spelled by what is written for it. -/
theorem ofString_render {s : String} (h : ofString s ≠ .anonymous) :
    ofString (ofString s).render = ofString s := by
  have hs : s.toList ≠ [] := fun hs => h (by rw [ofString, hs])
  have hsplit := splitAt_render hs
  have hwritten : (ofString s).render.toList ≠ [] := by
    intro hempty
    -- a name without characters would have been read from none
    rw [hempty] at hsplit
    have hlen := congrArg List.length hsplit
    obtain ⟨piece, hpiece⟩ : ∃ piece, Text.splitAt '.' s.toList = [piece] :=
      List.length_eq_one_iff.mp (by simpa [Text.splitAt] using hlen.symm)
    rw [hpiece, List.map_singleton] at hsplit
    have hnil := NamePart.eq_nil_of_render (List.cons.inj hsplit).1.symm
    exact hs (Text.eq_nil_of_splitAt (hpiece.trans (by rw [hnil])))
  rw [ofString_of_ne_nil hwritten, hsplit, ofString_of_ne_nil hs, List.map_map]
  exact congrArg Name.mk (List.map_congr_left fun cs _ => NamePart.ofChars_render cs)

end Name

/-! ### Names of bound variables -/

namespace Expr

theorem binderName_injective : Function.Injective binderName := by
  have hne : ∀ n : Nat, "x" ≠ "x_" ++ toString n := fun n h => by
    simpa using congrArg String.toList h
  intro m n h
  unfold binderName at h
  split at h <;> split at h
  · omega
  · exact absurd h (hne n)
  · exact absurd h.symm (hne m)
  · have hdigits : Nat.toDigits 10 m = Nat.toDigits 10 n := by
      simpa [Nat.toString_eq_ofList_toDigits] using congrArg String.toList h
    rw [← Nat.ofDigitChars_ten_toDigits (n := m), hdigits, Nat.ofDigitChars_ten_toDigits]

/-- The name of a bound variable is a single word. -/
theorem ofString_binderName (depth : Nat) :
    Name.ofString (binderName depth) = .simple (binderName depth) := by
  obtain ⟨cs, heq, hcs⟩ := Surface.binderName_eq depth
  have hdot : '.' ∉ 'x' :: cs := by
    intro h
    rcases List.mem_cons.mp h with h | h
    · cases h
    · cases hcs '.' h
  have hword : NamePart.ofChars ('x' :: cs) = .str (String.ofList ('x' :: cs)) := rfl
  rw [heq, Name.ofString, String.toList_ofList]
  simp only [Text.splitAt_of_not_mem hdot, List.map_cons, List.map_nil, hword, Name.simple]

theorem render_binderName (depth : Nat) :
    (Name.ofString (binderName depth)).render = binderName depth := by
  rw [ofString_binderName]
  rfl

end Expr

end Pinpoint
