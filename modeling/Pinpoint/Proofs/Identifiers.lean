/-
Names in terms that are read.

A name in a text that is read is an identifier, or the mark of a binder without a
name.  Each piece of an identifier between its points begins like a word, so that
none is a number, and what is written for the name that an identifier spells is
the identifier itself.

* `NamesIn` — a condition on all names of a term, of identifiers and of binders;
* `namesIn_of_parse` — the names of a term that is read;
* `render_ofString_eq_iff` — an identifier is written as it was read, and is written
  for the name of no other text.
-/
import Pinpoint.Proofs.Names
import Pinpoint.Proofs.Recognition

namespace Pinpoint

namespace Text

/-- The pieces of a text make it up. -/
theorem intercalate_splitAt (sep : Char) (cs : List Char) :
    [sep].intercalate (splitAt sep cs) = cs := by
  induction cs with
  | nil => rfl
  | cons c cs ih =>
    obtain ⟨piece, rest, hpieces⟩ := List.exists_cons_of_ne_nil (splitAt_ne_nil sep cs)
    rw [hpieces] at ih
    rw [splitAt]
    split
    · rename_i hc
      rw [hpieces, List.intercalate_cons_cons, ih, hc]
      rfl
    · cases rest with
      | nil =>
        rw [hpieces, ← ih]
        simp
      | cons next rest =>
        rw [hpieces, ← ih]
        simp only [List.intercalate_cons_cons, List.cons_append]

theorem splitAt_injective (sep : Char) : Function.Injective (splitAt sep) := fun cs ds h => by
  rw [← intercalate_splitAt sep cs, h, intercalate_splitAt]

end Text

namespace Surface

/-! ### Identifiers are written as they are read -/

/-- No word begins with a digit. -/
theorem isDigit_of_isIdentStart {c : Char} (h : isIdentStart c) : c.isDigit = false := by
  cases hc : c.isDigit with
  | false => rfl
  | true =>
    have hrange : 48 ≤ c.toNat ∧ c.toNat ≤ 57 := by
      simpa [Char.isDigit, UInt32.le_iff_toNat_le] using hc
    have hdigits : ∀ n ≤ 57, 48 ≤ n → isIdentStart (Char.ofNat n) = false := by decide +kernel
    have hfalse := hdigits c.toNat hrange.2 hrange.1
    rw [Char.ofNat_toNat] at hfalse
    cases h.symm.trans hfalse

/-- What begins like a word is a component that is no number. -/
theorem ofChars_of_isIdentStart {c : Char} (h : isIdentStart c) (cs : List Char) :
    NamePart.ofChars (c :: cs) = .str (String.ofList (c :: cs)) := by
  have hplus : c ≠ '+' := by
    rintro rfl
    revert h
    decide +kernel
  have hnone : Text.Numeral.parse? UInt64.size (c :: cs) = none := by
    rw [Text.Numeral.parse?]
    · rw [Text.Numeral.digits?, if_neg]
      simp [isDigit_of_isIdentStart h]
    · rintro ds heq
      exact hplus (List.cons.inj heq).1
  rw [NamePart.ofChars, hnone]

/-- All pieces of an identifier but the first begin like words, for a point belongs to
it only in front of one. -/
theorem splitAt_of_splitIdent {cs : List Char} (h : (splitIdent cs).2 = []) :
    ∃ piece rest, Text.splitAt '.' cs = piece :: rest ∧
      ∀ q ∈ rest, ∃ c ds, q = c :: ds ∧ isIdentStart c := by
  induction cs with
  | nil => exact ⟨[], [], rfl, nofun⟩
  | cons c cs ih =>
    rw [splitIdent] at h
    split at h
    · rename_i hc
      obtain ⟨piece, rest, hpieces, hrest⟩ := ih h
      by_cases hdot : c = '.'
      · -- what stands behind the point is the next piece, with a first character
        subst hdot
        have hhead : cs.head?.any isIdentStart := by
          simpa [(by decide +kernel : isIdentRest '.' = false)] using hc
        refine ⟨[], piece :: rest, by rw [Text.splitAt, if_pos rfl, hpieces], ?_⟩
        refine List.forall_mem_cons.mpr ⟨?_, hrest⟩
        cases cs with
        | nil => cases hhead
        | cons d ds =>
          have hd : isIdentStart d := by simpa using hhead
          have hne : d ≠ '.' := by
            rintro rfl
            revert hd
            decide +kernel
          rw [Text.splitAt, if_neg hne] at hpieces
          split at hpieces
          · exact ⟨d, _, (List.cons.inj hpieces).1.symm, hd⟩
          · exact ⟨d, _, (List.cons.inj hpieces).1.symm, hd⟩
      · exact ⟨c :: piece, rest, by rw [Text.splitAt, if_neg hdot, hpieces], hrest⟩
    · cases h

/-- Each piece of an identifier begins like a word. -/
theorem splitAt_of_isIdentifier {s : String} (h : isIdentifier s) :
    ∀ q ∈ Text.splitAt '.' s.toList, ∃ c ds, q = c :: ds ∧ isIdentStart c := by
  obtain ⟨c, cs, heq, hstart, -, -, hsplit, -⟩ := exists_of_isIdentifier h
  obtain ⟨piece, rest, hpieces, hrest⟩ := splitAt_of_splitIdent hsplit
  have hdot : c ≠ '.' := by
    rintro rfl
    revert hstart
    decide +kernel
  rw [heq, Text.splitAt, if_neg hdot, hpieces]
  exact List.forall_mem_cons.mpr ⟨⟨c, piece, rfl, hstart⟩, hrest⟩

/-- What is written for a piece that begins like a word is the piece. -/
theorem toList_render_ofChars {c : Char} (hc : isIdentStart c) (cs : List Char) :
    (NamePart.ofChars (c :: cs)).render.toList = c :: cs := by
  rw [ofChars_of_isIdentStart hc, NamePart.render, String.toList_ofList]

/-- It is written for no other piece: numbers are written in digits. -/
theorem eq_of_toList_render_ofChars {c : Char} (hc : isIdentStart c) {cs q : List Char}
    (h : (NamePart.ofChars q).render.toList = c :: cs) : q = c :: cs := by
  rw [NamePart.ofChars] at h
  split at h
  · rw [NamePart.toList_render_num] at h
    have hdigit := Nat.isDigit_of_mem_toDigits (b := 10) (by decide) (by decide)
      (h ▸ List.mem_cons_self)
    rw [isDigit_of_isIdentStart hc] at hdigit
    cases hdigit
  · rwa [NamePart.render, String.toList_ofList] at h

/-- An identifier is what is written for the name that a text spells exactly if it is
the text. -/
theorem render_ofString_eq_iff {s text : String} (hs : isIdentifier s) :
    (Name.ofString text).render = s ↔ text = s := by
  have hwords := splitAt_of_isIdentifier hs
  constructor
  · intro h
    have hne : text.toList ≠ [] := by
      intro hempty
      obtain rfl : text = "" := String.toList_injective hempty
      rw [← h] at hs
      revert hs
      decide +kernel
    have hsplit := Name.splitAt_render hne
    rw [h] at hsplit
    have hwritten : ∀ q ∈ Text.splitAt '.' text.toList,
        (NamePart.ofChars q).render.toList = q := by
      intro q hq
      obtain ⟨c, cs, hcs, hc⟩ := hwords _ (hsplit ▸ List.mem_map_of_mem hq)
      rw [hcs, eq_of_toList_render_ofChars hc hcs]
    rw [List.map_congr_left hwritten, List.map_id'] at hsplit
    exact (String.toList_injective (Text.splitAt_injective '.' hsplit)).symm
  · rintro rfl
    have hne : text.toList ≠ [] := by
      obtain ⟨c, cs, heq, -⟩ := exists_of_isIdentifier hs
      rw [heq]
      exact List.cons_ne_nil c cs
    have hwritten : ∀ q ∈ Text.splitAt '.' text.toList,
        (NamePart.ofChars q).render.toList = q := by
      intro q hq
      obtain ⟨c, cs, rfl, hc⟩ := hwords q hq
      exact toList_render_ofChars hc cs
    have hsplit := Name.splitAt_render hne
    rw [List.map_congr_left hwritten, List.map_id'] at hsplit
    exact String.toList_injective (Text.splitAt_injective '.' hsplit)

/-- What is written for the name that an identifier spells is the identifier. -/
theorem render_of_isIdentifier {s : String} (h : isIdentifier s) :
    (Name.ofString s).render = s :=
  (render_ofString_eq_iff h).mpr rfl

/-! ### The names of a term -/

mutual

/-- Whether a condition holds of all names in a term, of identifiers and of
binders. -/
def Term.NamesIn (p : String → Prop) : Term → Prop
  | .ident _ name => p name
  | .prop _ | .type _ | .nat _ _ | .str _ _ => True
  | .app _ head args => head.NamesIn p ∧ args.NamesIn p
  | .lam _ binders body | .pi _ binders body => binders.NamesIn p ∧ body.NamesIn p
  | .arrow _ dom cod => dom.NamesIn p ∧ cod.NamesIn p
  | .binary _ _ lhs rhs => lhs.NamesIn p ∧ rhs.NamesIn p
  | .paren _ e => e.NamesIn p

/-- Whether a condition holds of all names in arguments. -/
def Args.NamesIn (p : String → Prop) : Args → Prop
  | .one a => a.NamesIn p
  | .cons a rest => a.NamesIn p ∧ rest.NamesIn p

/-- Whether a condition holds of all names of binders and in their types. -/
def Binders.NamesIn (p : String → Prop) : Binders → Prop
  | .one b type => p b.name ∧ type.NamesIn p
  | .cons b type rest => p b.name ∧ type.NamesIn p ∧ rest.NamesIn p

end

section
variable {p q r : String → Prop}

theorem Term.NamesIn.unparen : ∀ {e : Term}, e.NamesIn p → e.unparen.NamesIn p
  | .paren _ e, h => unparen (e := e) h
  | .ident .., h | .prop _, h | .type _, h | .nat .., h | .str .., h | .app .., h | .arrow .., h
  | .binary .., h | .lam .., h | .pi .., h => h

mutual

/-- Conditions that hold of all names hold of them together. -/
theorem Term.NamesIn.imp₂ (hr : ∀ s, p s → q s → r s) :
    ∀ {e : Term}, e.NamesIn p → e.NamesIn q → e.NamesIn r
  | .ident _ s, hp, hq => hr s hp hq
  | .prop _, _, _ | .type _, _, _ | .nat _ _, _, _ | .str _ _, _, _ => trivial
  | .app _ _ _, hp, hq => ⟨hp.1.imp₂ hr hq.1, hp.2.imp₂ hr hq.2⟩
  | .lam _ _ _, hp, hq | .pi _ _ _, hp, hq => ⟨hp.1.imp₂ hr hq.1, hp.2.imp₂ hr hq.2⟩
  | .arrow _ _ _, hp, hq | .binary _ _ _ _, hp, hq => ⟨hp.1.imp₂ hr hq.1, hp.2.imp₂ hr hq.2⟩
  | .paren _ e, hp, hq => Term.NamesIn.imp₂ hr (e := e) hp hq

theorem Args.NamesIn.imp₂ (hr : ∀ s, p s → q s → r s) :
    ∀ {args : Args}, args.NamesIn p → args.NamesIn q → args.NamesIn r
  | .one a, hp, hq => Term.NamesIn.imp₂ hr (e := a) hp hq
  | .cons _ _, hp, hq => ⟨hp.1.imp₂ hr hq.1, hp.2.imp₂ hr hq.2⟩

theorem Binders.NamesIn.imp₂ (hr : ∀ s, p s → q s → r s) :
    ∀ {binders : Binders}, binders.NamesIn p → binders.NamesIn q → binders.NamesIn r
  | .one _ _, hp, hq => ⟨hr _ hp.1 hq.1, hp.2.imp₂ hr hq.2⟩
  | .cons _ _ _, hp, hq => ⟨hr _ hp.1 hq.1, hp.2.1.imp₂ hr hq.2.1, hp.2.2.imp₂ hr hq.2.2⟩

end

end

theorem Binder.name_of_isWritable {b : Binder} (h : b.isWritable) :
    b.name = "_" ∨ isIdentifier b.name := by
  simpa [isWritable] using h

section
variable {before : Nat → Term → Bool}

mutual

/-- The names in a well-formed term can be written. -/
theorem Term.namesIn_of_fits : ∀ {prec : Nat} (e : Term), e.fits before prec →
    e.NamesIn fun s => s = "_" ∨ isIdentifier s
  | _, .ident _ s, h => by
    simp only [Term.fits, Bool.and_eq_true] at h
    exact .inr h.1.1
  | _, .prop _, _ | _, .type _, _ | _, .nat _ _, _ | _, .str _ _, _ => trivial
  | _, .app _ head args, h => by
    simp only [Term.fits, Bool.and_eq_true] at h
    exact ⟨head.namesIn_of_fits h.1.1.2, args.namesIn_of_fit h.2⟩
  | _, .lam _ binders body, h | _, .pi _ binders body, h => by
    simp only [Term.fits, Bool.and_eq_true] at h
    exact ⟨binders.namesIn_of_fit h.1, body.namesIn_of_fits h.2⟩
  | _, .arrow _ dom cod, h => by
    simp only [Term.fits, Bool.and_eq_true] at h
    exact ⟨dom.namesIn_of_fits h.1.1.2, cod.namesIn_of_fits h.2⟩
  | _, .binary _ _ lhs rhs, h => by
    simp only [Term.fits, Bool.and_eq_true] at h
    exact ⟨lhs.namesIn_of_fits h.1.1.2, rhs.namesIn_of_fits h.2⟩
  | _, .paren _ e, h => e.namesIn_of_fits (by simpa only [Term.fits] using h)

theorem Args.namesIn_of_fit : ∀ args : Args, args.fit before →
    args.NamesIn fun s => s = "_" ∨ isIdentifier s
  | .one a, h => a.namesIn_of_fits (by simpa only [Args.fit] using h)
  | .cons a rest, h => by
    simp only [Args.fit, Bool.and_eq_true] at h
    exact ⟨a.namesIn_of_fits h.1.1, rest.namesIn_of_fit h.2⟩

theorem Binders.namesIn_of_fit : ∀ binders : Binders, binders.fit before →
    binders.NamesIn fun s => s = "_" ∨ isIdentifier s
  | .one b type, h => by
    simp only [Binders.fit, Bool.and_eq_true] at h
    exact ⟨b.name_of_isWritable h.1, type.namesIn_of_fits h.2⟩
  | .cons b type rest, h => by
    simp only [Binders.fit, Bool.and_eq_true] at h
    exact ⟨b.name_of_isWritable h.1.1, type.namesIn_of_fits h.1.2, rest.namesIn_of_fit h.2⟩

end

end

/-- The names in a term that is read are identifiers, or stand for no name. -/
theorem namesIn_of_parse {text : String} {e : Term} (h : Term.parse text = .ok e) :
    e.NamesIn fun s => s = "_" ∨ isIdentifier s := by
  obtain ⟨ts, hts, he⟩ := bind_eq_ok.mp h
  obtain ⟨hspelled, ks, hkinds, hend⟩ := wellSpelled_of_tokenize hts
  exact e.namesIn_of_fits (isReadable_of_ofTokens hspelled hkinds hend he).1

end Surface

end Pinpoint
