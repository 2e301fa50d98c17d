/-
  Texts that determine polynomials.

  * `isIdentifier`: a letter or underscore, then letters, digits and underscores.
  * `Readable text valid ends a`: wherever the text of `a` stands before something in `ends`, it can
    only be the text of `a`, and it ends there.
  * `readable_joined`, `readable_separated`: this passes from the parts of a list to the list.
  * `Symbol.unambiguous`, `Polynomial.Legible.append_inj`: symbols and polynomials are readable if
    all names in them are identifiers.
  * `Polynomial.DeeplyBuilt.eq_of_render`: so two polynomials with the same text are equal.

  What may follow differs between the levels: a symbol ends before `^` and `*`, a term does not, and
  a polynomial does not end before the sign of another term.
-/
import QuantumLowering.Proofs.ReducedForm
import QuantumLowering.Symbol.Text

namespace QuantumLowering

/-! ## Readable texts -/

/-- Nothing, or something that begins with one of the characters `cs`. -/
def Ends (cs u : List Char) : Prop := ∀ c ∈ u.head?, c ∈ cs

/-- Begins with a character that satisfies `P`. -/
def Begins (P : Char → Prop) (u : List Char) : Prop := ∃ c, u.head? = some c ∧ P c

/-- Wherever the text of `a` stands before something in `ends`, it can only be the text of `a`. -/
def Readable {α : Type} (text : α → List Char) (valid : α → Prop) (ends : List Char → Prop)
    (a : α) : Prop :=
  valid a → ∀ b u v, valid b → ends u → ends v → text a ++ u = text b ++ v → a = b ∧ u = v

section
variable {P Q : Char → Prop} {cs cs' u v : List Char} {c : Char}

@[simp] theorem begins_cons : Begins P (c :: u) ↔ P c := by simp [Begins]

theorem Begins.append (h : Begins P u) : Begins P (u ++ v) := by
  obtain ⟨c, hc, hP⟩ := h
  exact ⟨c, by rw [List.head?_append, hc, Option.some_or], hP⟩

theorem Begins.mono (h : Begins P u) (hPQ : ∀ c, P c → Q c) : Begins Q u := by
  obtain ⟨c, hc, hP⟩ := h
  exact ⟨c, hc, hPQ c hP⟩

theorem Begins.ne (hu : Begins P u) (hv : Begins Q v) (hPQ : ∀ c, P c → ¬ Q c) : u ≠ v := by
  rintro rfl
  obtain ⟨c, hc, hP⟩ := hu
  obtain ⟨d, hd, hQ⟩ := hv
  obtain rfl : c = d := Option.some.inj (hc.symm.trans hd)
  exact hPQ c hP hQ

@[simp] theorem ends_nil : Ends cs [] := fun _ h => by simp at h

@[simp] theorem ends_cons : Ends cs (c :: u) ↔ c ∈ cs := by simp [Ends]

theorem Ends.mono (h : Ends cs u) (hcs : cs ⊆ cs') : Ends cs' u := fun c hc => hcs (h c hc)

/-- A text of one kind of characters ends where the characters are of another kind. -/
theorem append_inj_of_all {p : Char → Bool} {a b : List Char} (hcs : cs.all (! p ·))
    (ha : ∀ c ∈ a, p c) (hb : ∀ c ∈ b, p c) (hu : Ends cs u) (hv : Ends cs v)
    (h : a ++ u = b ++ v) : a = b ∧ u = v := by
  have hends {w : List Char} {c : Char} {x : List Char} (hw : Ends cs w) (hc : p c) : w ≠ c :: x := by
    rintro rfl
    have hnot := List.all_eq_true.1 hcs c (ends_cons.1 hw)
    rw [hc] at hnot
    exact absurd hnot (by decide)
  induction a generalizing b with
  | nil =>
    cases b with
    | nil => exact ⟨rfl, h⟩
    | cons c b => exact absurd h (hends hu (hb c List.mem_cons_self))
  | cons c a ih =>
    cases b with
    | nil => exact absurd h.symm (hends hv (ha c List.mem_cons_self))
    | cons d b =>
      obtain ⟨rfl, htail⟩ := List.cons.inj h
      obtain ⟨rfl, hw⟩ := ih (List.forall_mem_cons.1 ha).2 (List.forall_mem_cons.1 hb).2 htail
      exact ⟨rfl, hw⟩

end

/-- The text of a list that is not empty: the first part, and then every part as it follows another
    one. -/
def joined {α : Type} (first later : α → List Char) : List α → List Char
  | [] => []
  | x :: xs => first x ++ xs.flatMap later

section
variable {α : Type} {first later : α → List Char} {valid : α → Prop}
  {ends ends' : List Char → Prop} {xs : List α}
  (hlater : ∀ y w, ends (later y ++ w)) (hends : ∀ u, ends' u → ends u)
include hlater hends

theorem ends_flatMap {u : List Char} (hu : ends' u) : ends (xs.flatMap later ++ u) := by
  cases xs with
  | nil => exact hends u hu
  | cons x xs =>
    rw [List.flatMap_cons, List.append_assoc]
    exact hlater x _

variable (hnot : ∀ y u w, ends' u → u ≠ later y ++ w)
  (hxs : ∀ x ∈ xs, Readable later valid ends x)
include hnot hxs

/-- By induction on the one list and by cases of the other. -/
theorem readable_flatMap :
    Readable (fun xs => xs.flatMap later) (fun xs => ∀ x ∈ xs, valid x) ends' xs := by
  induction xs with
  | nil =>
    intro _ ys u v _ hu _ heq
    cases ys with
    | nil => exact ⟨rfl, heq⟩
    | cons y ys =>
      simp only [List.flatMap_nil, List.nil_append, List.flatMap_cons, List.append_assoc] at heq
      exact absurd heq (hnot y u _ hu)
  | cons x xs ih =>
    intro hvalid ys u v hvalid' hu hv heq
    cases ys with
    | nil =>
      simp only [List.flatMap_nil, List.nil_append, List.flatMap_cons, List.append_assoc] at heq
      exact absurd heq.symm (hnot x v _ hv)
    | cons y ys =>
      rw [List.forall_mem_cons] at hxs hvalid hvalid'
      simp only [List.flatMap_cons, List.append_assoc] at heq
      obtain ⟨rfl, htail⟩ := hxs.1 hvalid.1 y _ _ hvalid'.1 (ends_flatMap hlater hends hu)
        (ends_flatMap hlater hends hv) heq
      obtain ⟨rfl, hw⟩ := ih hxs.2 hvalid.2 ys u v hvalid'.2 hu hv htail
      exact ⟨rfl, hw⟩

/-- What is readable can be joined, up to something that does not begin like another part. -/
theorem readable_joined (hfirst : ∀ x ∈ xs, Readable first valid ends x) :
    Readable (joined first later) (fun xs => xs ≠ [] ∧ ∀ x ∈ xs, valid x) ends' xs := by
  intro ⟨hne, hvalid⟩ ys u v ⟨hne', hvalid'⟩ hu hv heq
  obtain _ | ⟨x, xs⟩ := xs
  · exact absurd rfl hne
  obtain _ | ⟨y, ys⟩ := ys
  · exact absurd rfl hne'
  rw [List.forall_mem_cons] at hfirst hxs hvalid hvalid'
  rw [joined, joined, List.append_assoc, List.append_assoc] at heq
  obtain ⟨rfl, htail⟩ := hfirst.1 hvalid.1 y _ _ hvalid'.1 (ends_flatMap hlater hends hu)
    (ends_flatMap hlater hends hv) heq
  obtain ⟨rfl, hw⟩ := readable_flatMap hlater hends hnot hxs.2 hvalid.2 ys u v hvalid'.2 hu hv htail
  exact ⟨rfl, hw⟩

end

/-- What is joined by a separator. -/
theorem toList_intercalate_eq_joined {α : Type} {sep : String} {text : α → String} {xs : List α} :
    (sep.intercalate (xs.map text)).toList =
      joined (fun x => (text x).toList) (fun x => sep.toList ++ (text x).toList) xs := by
  cases xs with
  | nil => rfl
  | cons x xs =>
    rw [joined]
    induction xs generalizing x with
    | nil => simp
    | cons y xs ih =>
      have hy := ih y
      rw [List.map_cons] at hy ⊢
      rw [List.map_cons, String.intercalate_cons_cons, String.toList_append, String.toList_append, hy,
        List.flatMap_cons, List.append_assoc, List.append_assoc]

/-- What is readable can be joined by a separator. -/
theorem readable_separated {α : Type} {sep : String} {text : α → String} {valid : α → Prop}
    {ends ends' : List Char → Prop} {xs : List α} (hsep : ∀ w, ends (sep.toList ++ w))
    (hends : ∀ u, ends' u → ends u) (hnot : ∀ u w, ends' u → u ≠ sep.toList ++ w)
    (hxs : ∀ x ∈ xs, Readable (fun x => (text x).toList) valid ends x) :
    Readable (fun xs => (sep.intercalate (xs.map text)).toList)
      (fun xs => xs ≠ [] ∧ ∀ x ∈ xs, valid x) ends' xs := by
  simp only [toList_intercalate_eq_joined]
  refine readable_joined (fun y w => ?_) hends (fun y u w hu => ?_) (fun x hx => ?_) hxs
  · rw [List.append_assoc]
    exact hsep _
  · rw [List.append_assoc]
    exact hnot u _ hu
  · intro hvalid y u v hvalid' hu hv heq
    rw [List.append_assoc, List.append_assoc, List.append_cancel_left_eq] at heq
    exact hxs x hx hvalid y u v hvalid' hu hv heq

/-! ## Numbers and names -/

theorem isDigit_of_mem_toString {n : Nat} {c : Char} (h : c ∈ (toString n).toList) : c.isDigit := by
  rw [Nat.toString_eq_ofList_toDigits, String.toList_ofList] at h
  exact Nat.isDigit_of_mem_toDigits (by decide) (by decide) h

theorem begins_toString (n : Nat) : Begins (·.isDigit) (toString n).toList := by
  cases h : (toString n).toList with
  | nil =>
    rw [Nat.toString_eq_ofList_toDigits, String.toList_ofList] at h
    exact absurd h Nat.toDigits_ne_nil
  | cons c w => exact begins_cons.2 (isDigit_of_mem_toString (h ▸ List.mem_cons_self))

/-- A number ends before what is no digit. -/
theorem toString_append_inj {cs u v : List Char} {m n : Nat} (hcs : cs.all (! Char.isDigit ·))
    (hu : Ends cs u) (hv : Ends cs v) (h : (toString m).toList ++ u = (toString n).toList ++ v) :
    m = n ∧ u = v := by
  obtain ⟨hdigits, hw⟩ := append_inj_of_all hcs (fun _ => isDigit_of_mem_toString)
    (fun _ => isDigit_of_mem_toString) hu hv h
  rw [Nat.toString_eq_ofList_toDigits, Nat.toString_eq_ofList_toDigits, String.toList_ofList,
    String.toList_ofList] at hdigits
  refine ⟨?_, hw⟩
  calc m = Nat.ofDigitChars 10 (Nat.toDigits 10 m) 0 := Nat.ofDigitChars_ten_toDigits.symm
    _ = Nat.ofDigitChars 10 (Nat.toDigits 10 n) 0 := by rw [hdigits]
    _ = n := Nat.ofDigitChars_ten_toDigits

/-- The characters of names.  Those beyond ASCII all count as letters. -/
def isWordChar (c : Char) : Bool := c.isAlphanum || c == '_' || 128 ≤ c.toNat

/-- A letter or underscore, then letters, digits and underscores. -/
def isIdentifier (x : String) : Bool :=
  match x.toList with
  | [] => false
  | c :: cs => !c.isDigit && isWordChar c && cs.all isWordChar

theorem begins_identifier {x : String} (h : isIdentifier x) :
    Begins (fun c => c.isDigit = false ∧ isWordChar c) x.toList := by
  unfold isIdentifier at h
  split at h
  · exact absurd h (by decide)
  · rename_i c w hx
    simp only [Bool.and_eq_true, Bool.not_eq_true'] at h
    rw [hx]
    exact begins_cons.2 h.1

theorem isWordChar_of_mem {x : String} (h : isIdentifier x) : ∀ c ∈ x.toList, isWordChar c := by
  unfold isIdentifier at h
  split at h
  · exact absurd h (by decide)
  · rename_i c w hx
    simp only [Bool.and_eq_true, List.all_eq_true] at h
    rw [hx]
    exact List.forall_mem_cons.2 ⟨h.1.2, h.2⟩

/-- A name ends before what is no character of names. -/
theorem identifier_append_inj {cs u v : List Char} {x y : String}
    (hcs : cs.all (! isWordChar ·)) (hx : isIdentifier x) (hy : isIdentifier y)
    (hu : Ends cs u) (hv : Ends cs v) (h : x.toList ++ u = y.toList ++ v) : x = y ∧ u = v := by
  obtain ⟨hname, hw⟩ := append_inj_of_all hcs (isWordChar_of_mem hx) (isWordChar_of_mem hy) hu hv h
  exact ⟨String.toList_inj.1 hname, hw⟩

/-- All names in the symbol, at any depth, are identifiers. -/
inductive Symbol.WellNamed : Symbol → Prop
  | named {x : String} : isIdentifier x → WellNamed (.named x)
  | binary {op : BinOp} {p q : Poly} : p.Over WellNamed → q.Over WellNamed →
      WellNamed (.binary op p q)
  | call {f : String} {args : List Poly} : isIdentifier f → (∀ a ∈ args, a.Over WellNamed) →
      WellNamed (.call f args)

/-- All names in the polynomial, at any depth, are identifiers. -/
def Polynomial.WellNamed (p : Poly) : Prop := p.Over Symbol.WellNamed

/-- Reduced and with identifiers for names. -/
structure Symbol.Legible (s : Symbol) : Prop where
  reduced : s.Reduced
  wellNamed : s.WellNamed

/-- Reduced and with identifiers for names. -/
structure Polynomial.Legible (p : Poly) : Prop where
  reduced : p.Reduced
  wellNamed : p.WellNamed

theorem Polynomial.Legible.symbols {p : Poly} (h : p.Legible) : p.Over Symbol.Legible :=
  fun t ht f hf => ⟨h.reduced.symbols t ht f hf, h.wellNamed t ht f hf⟩

namespace Symbol

/-! ## The layout of texts -/

/-- The exponent behind a symbol. -/
def exponentText (e : UInt32) : String := if e = 1 then "" else "^" ++ toString e

/-- What is multiplied in a term: numbers, and symbols with exponents. -/
def partText : Nat ⊕ Symbol × UInt32 → String
  | .inl n => toString n
  | .inr f => render f.1 ++ exponentText f.2

/-- The parts of a term without its sign: no number one before symbols. -/
def parts (n : Nat) (m : List (Symbol × UInt32)) : List (Nat ⊕ Symbol × UInt32) :=
  if m = [] then [.inl n] else if n = 1 then m.map .inr else .inl n :: m.map .inr

/-- The text of a term without its sign. -/
def magnitudeText (t : Monomial Symbol) : String :=
  "*".intercalate ((parts t.coefficient.toInt.natAbs t.powers.factors).map partText)

/-- The text of a term that no other one precedes. -/
def firstText (t : Monomial Symbol) : List Char :=
  (if t.coefficient < 0 then ['-'] else []) ++ (magnitudeText t).toList

/-- The text of a term behind others. -/
def laterText (t : Monomial Symbol) : List Char :=
  ' ' :: (if t.coefficient < 0 then '-' else '+') :: ' ' :: (magnitudeText t).toList

/-- The terms that are written, from the greatest down: at least the constant zero. -/
def writtenTerms (p : Poly) : List (Monomial Symbol) :=
  if p.terms = [] then [⟨.one, 0⟩] else p.terms.reverse

theorem over_writtenTerms {P : Symbol → Prop} {p : Poly} (h : p.Over P) :
    ∀ t ∈ writtenTerms p, t.powers.Over P := by
  unfold writtenTerms
  split
  · exact List.forall_mem_singleton.2 .one
  · exact fun t ht => h t (List.mem_reverse.1 ht)

theorem writtenTerms_ne_nil {p : Poly} : writtenTerms p ≠ [] := by
  unfold writtenTerms
  split
  · exact List.cons_ne_nil _ _
  · rename_i hne
    exact fun h => hne (List.reverse_eq_nil_iff.1 h)

theorem renderFactors_eq_map {m : List (Symbol × UInt32)} :
    renderFactors m = (m.map .inr).map partText := by
  induction m with
  | nil => rw [renderFactors, List.map_nil, List.map_nil]
  | cons f m ih =>
    rw [renderFactors, ih, List.map_cons, List.map_cons, partText, exponentText]
    split
    · rw [String.append_empty]
    · rw [String.append_assoc]

theorem renderArgs_eq_map {args : List Poly} : renderArgs args = args.map renderPoly := by
  induction args with
  | nil => rw [renderArgs, List.map_nil]
  | cons a args ih => rw [renderArgs, ih, List.map_cons]

theorem signedText_eq {t : Monomial Symbol} :
    signedText t.powers.factors.isEmpty ("*".intercalate (renderFactors t.powers.factors))
      t.coefficient = ⟨t.coefficient < 0, magnitudeText t⟩ := by
  rw [signedText, renderFactors_eq_map, magnitudeText, parts]
  cases t.powers.factors with
  | nil => simp [partText]
  | cons f m =>
    by_cases hone : t.coefficient.toInt.natAbs = 1
    · simp [hone]
    · simp [hone, partText, String.append_assoc]

theorem signedTexts_eq_map {ts : List (Monomial Symbol)} :
    signedTexts ts = ts.map fun t => ⟨t.coefficient < 0, magnitudeText t⟩ := by
  induction ts with
  | nil => rw [signedTexts, List.map_nil]
  | cons t ts ih => rw [signedTexts, ih, List.map_cons, signedText_eq]

theorem toList_renderPoly {p : Poly} :
    (renderPoly p).toList = joined firstText laterText (writtenTerms p) := by
  have hrest (ts : List (Monomial Symbol)) :
      (joinRest (ts.map fun t => ⟨t.coefficient < 0, magnitudeText t⟩)).toList =
        ts.flatMap laterText := by
    induction ts with
    | nil => rfl
    | cons t ts ih =>
      rw [List.map_cons, joinRest, String.toList_append, String.toList_append, ih, List.flatMap_cons,
        laterText]
      by_cases hneg : t.coefficient < 0 <;> simp [hneg]
  obtain ⟨ts⟩ := p
  rw [renderPoly, signedTexts_eq_map, ← List.map_reverse, writtenTerms]
  split
  · rename_i hnil
    obtain rfl : ts = [] := hnil
    rfl
  · rename_i hne
    obtain ⟨t, us, hts⟩ := List.exists_cons_of_ne_nil (List.reverse_ne_nil_iff.2 hne)
    rw [hts, List.map_cons, joinTerms, String.toList_append, String.toList_append, hrest, joined,
      firstText]
    by_cases hneg : t.coefficient < 0 <;> simp [hneg]

/-! ## How texts begin -/

/-- The characters that symbols and numbers begin with. -/
def isOpening (c : Char) : Bool := c == '(' || isWordChar c

theorem begins_render {s : Symbol} (h : s.WellNamed) :
    Begins (fun c => c.isDigit = false ∧ isOpening c) (render s).toList := by
  have hname {x : String} (hx : isIdentifier x) :
      Begins (fun c => c.isDigit = false ∧ isOpening c) x.toList := by
    refine (begins_identifier hx).mono fun c hc => ⟨hc.1, ?_⟩
    rw [isOpening, hc.2, Bool.or_true]
  cases h with
  | named hx =>
    rw [render]
    exact hname hx
  | binary =>
    simp only [render, String.toList_append, List.append_assoc]
    exact begins_cons.2 ⟨by decide, by decide⟩
  | call hf =>
    simp only [render, String.toList_append, List.append_assoc]
    exact (hname hf).append

/-- The symbol in a part satisfies `P`. -/
def PartOver (P : Symbol → Prop) : Nat ⊕ Symbol × UInt32 → Prop
  | .inl _ => True
  | .inr f => P f.1

theorem parts_ne_nil {n : Nat} {m : List (Symbol × UInt32)} : parts n m ≠ [] := by
  unfold parts
  split
  · exact List.cons_ne_nil _ _
  split
  · rename_i hm _
    exact fun h => hm (List.map_eq_nil_iff.1 h)
  · exact List.cons_ne_nil _ _

theorem partOver_parts {P : Symbol → Prop} {n : Nat} {m : List (Symbol × UInt32)}
    (h : ∀ f ∈ m, P f.1) : ∀ a ∈ parts n m, PartOver P a := by
  unfold parts
  split
  · exact List.forall_mem_singleton.2 trivial
  split
  · exact List.forall_mem_map.2 h
  · exact List.forall_mem_cons.2 ⟨trivial, List.forall_mem_map.2 h⟩

/-- Numbers begin with a digit, and symbols do not. -/
theorem begins_partText {a : Nat ⊕ Symbol × UInt32} (h : PartOver WellNamed a) :
    Begins (fun c => c.isDigit = a.isLeft ∧ isOpening c) (partText a).toList := by
  cases a with
  | inl n =>
    refine (begins_toString n).mono fun c hc => ⟨hc, ?_⟩
    simp [isOpening, isWordChar, Char.isAlphanum, hc]
  | inr f =>
    rw [partText, String.toList_append]
    exact (begins_render h).append

theorem begins_magnitudeText {t : Monomial Symbol} (h : t.powers.Over WellNamed) :
    Begins (isOpening ·) (magnitudeText t).toList := by
  rw [magnitudeText, toList_intercalate_eq_joined]
  obtain ⟨a, as, ha⟩ := List.exists_cons_of_ne_nil
    (parts_ne_nil (n := t.coefficient.toInt.natAbs) (m := t.powers.factors))
  have hparts := partOver_parts (n := t.coefficient.toInt.natAbs) h
  rw [ha] at hparts ⊢
  exact ((begins_partText (hparts a List.mem_cons_self)).mono fun c hc => hc.2).append

/-- No polynomial begins like the end of an argument list. -/
theorem begins_renderPoly {p : Poly} (h : p.Over WellNamed) :
    Begins (· ≠ ')') (renderPoly p).toList := by
  have hterm (t : Monomial Symbol) (ht : t.powers.Over WellNamed) :
      Begins (· ≠ ')') (firstText t) := by
    unfold firstText
    split
    · exact begins_cons.2 (by decide)
    · refine (begins_magnitudeText ht).mono ?_
      rintro c hc rfl
      exact absurd hc (by decide)
  have hwritten := over_writtenTerms h
  obtain ⟨t, ts, hts⟩ := List.exists_cons_of_ne_nil (writtenTerms_ne_nil (p := p))
  rw [hts] at hwritten
  rw [toList_renderPoly, hts]
  exact (hterm t (hwritten t List.mem_cons_self)).append

/-! ## From symbols to terms -/

/-- What may stand behind a symbol. -/
def symbolEnds : List Char := [' ', ')', ',', '*', '^']

/-- What may stand behind a part of a term. -/
def partEnds : List Char := [' ', ')', ',', '*']

/-- What may stand behind a term. -/
def termEnds : List Char := [' ', ')', ',']

/-- The text determines the symbol, whatever may follow it. -/
def Unambiguous (s : Symbol) : Prop :=
  Readable (fun s => (render s).toList) Legible (Ends symbolEnds) s

section
variable {u v : List Char}

theorem ends_exponentText {e : UInt32} (hu : Ends partEnds u) :
    Ends symbolEnds ((exponentText e).toList ++ u) := by
  unfold exponentText
  split
  · exact hu.mono (by decide)
  · rw [String.toList_append]
    exact ends_cons.2 (by decide)

theorem exponentText_append_inj {d e : UInt32} (hu : Ends partEnds u) (hv : Ends partEnds v)
    (h : (exponentText d).toList ++ u = (exponentText e).toList ++ v) : d = e ∧ u = v := by
  -- The mark of an exponent is not among what may follow.
  have hmark {n : Nat} {w x : List Char} (hw : Ends partEnds w) :
      ("^" ++ toString n).toList ++ x ≠ w := by
    rintro rfl
    rw [String.toList_append] at hw
    exact absurd (ends_cons.1 hw) (by decide)
  unfold exponentText at h
  split at h
  · rename_i hd
    split at h
    · rename_i he
      exact ⟨hd.trans he.symm, h⟩
    · exact absurd h.symm (hmark hu)
  · split at h
    · exact absurd h (hmark hv)
    · rw [String.toList_append, String.toList_append, List.append_assoc, List.append_assoc,
        List.append_cancel_left_eq] at h
      exact (toString_append_inj (by decide) hu hv h).imp_left UInt32.toNat_inj.1

theorem readable_part {a : Nat ⊕ Symbol × UInt32} (ha : PartOver Unambiguous a) :
    Readable (fun a => (partText a).toList) (PartOver Legible) (Ends partEnds) a := by
  intro hvalid b u v hvalid' hu hv h
  have hwell {a : Nat ⊕ Symbol × UInt32} (ha : PartOver Legible a) : PartOver WellNamed a := by
    cases a with
    | inl n => trivial
    | inr f => exact ha.wellNamed
  -- The first character tells numbers from symbols.
  have hside : a.isLeft = b.isLeft := by
    by_contra hne
    refine absurd h (Begins.ne (begins_partText (hwell hvalid)).append
      (begins_partText (hwell hvalid')).append ?_)
    exact fun c hc hc' => hne (hc.1.symm.trans hc'.1)
  cases a with
  | inl m =>
    cases b with
    | inl n =>
      obtain ⟨rfl, hw⟩ := toString_append_inj (by decide) hu hv h
      exact ⟨rfl, hw⟩
    | inr g => exact absurd hside (by simp)
  | inr f =>
    cases b with
    | inl n => exact absurd hside (by simp)
    | inr g =>
      simp only [partText, String.toList_append, List.append_assoc] at h
      obtain ⟨hsymbol, htail⟩ := ha hvalid g.1 _ _ hvalid' (ends_exponentText hu)
        (ends_exponentText hv) h
      obtain ⟨hexponent, hw⟩ := exponentText_append_inj hu hv htail
      exact ⟨by rw [Prod.ext hsymbol hexponent], hw⟩

theorem readable_parts {as : List (Nat ⊕ Symbol × UInt32)}
    (has : ∀ a ∈ as, PartOver Unambiguous a) :
    Readable (fun as => ("*".intercalate (as.map partText)).toList)
      (fun as => as ≠ [] ∧ ∀ a ∈ as, PartOver Legible a) (Ends termEnds) as := by
  refine readable_separated (fun w => ends_cons.2 (by decide)) (fun u hu => hu.mono (by decide)) ?_
    fun a ha => readable_part (has a ha)
  rintro u w hu rfl
  exact absurd (ends_cons.1 hu) (by decide)

/-- The parts of a term determine its number and its symbols. -/
theorem parts_inj {n n' : Nat} {m m' : List (Symbol × UInt32)} (h : parts n m = parts n' m') :
    n = n' ∧ m = m' := by
  -- The number is the first part, or one; the symbols are the other parts.
  have hnumber (n : Nat) (m : List (Symbol × UInt32)) :
      ((parts n m).head?.bind Sum.getLeft?).getD 1 = n := by
    unfold parts
    split
    · rfl
    split
    · rename_i hne hone
      obtain ⟨f, m, rfl⟩ := List.exists_cons_of_ne_nil hne
      exact hone.symm
    · rfl
  have hsymbols (n : Nat) (m : List (Symbol × UInt32)) :
      (parts n m).filterMap Sum.getRight? = m := by
    unfold parts
    split
    · rename_i hnil
      exact hnil.symm
    split
    · rw [List.filterMap_map]
      exact List.filterMap_some
    · rw [List.filterMap_cons_none rfl, List.filterMap_map]
      exact List.filterMap_some
  constructor
  · rw [← hnumber n m, h, hnumber]
  · rw [← hsymbols n m, h, hsymbols]

theorem magnitudeText_append_inj {s t : Monomial Symbol} (hs : s.powers.Over Unambiguous)
    (hsl : s.powers.Over Legible) (htl : t.powers.Over Legible) (hu : Ends termEnds u)
    (hv : Ends termEnds v)
    (h : (magnitudeText s).toList ++ u = (magnitudeText t).toList ++ v) :
    s.coefficient.toInt.natAbs = t.coefficient.toInt.natAbs ∧ s.powers = t.powers ∧ u = v := by
  obtain ⟨hparts, hw⟩ := readable_parts (partOver_parts hs) ⟨parts_ne_nil, partOver_parts hsl⟩ _ u v
    ⟨parts_ne_nil, partOver_parts htl⟩ hu hv h
  obtain ⟨hn, hm⟩ := parts_inj hparts
  exact ⟨hn, congrArg PowerProduct.mk hm, hw⟩

/-- The sign and the text without it determine a term. -/
theorem term_eq {s t : Monomial Symbol} (hsign : s.coefficient < 0 ↔ t.coefficient < 0)
    (hs : s.powers.Over Unambiguous) (hsl : s.powers.Over Legible) (htl : t.powers.Over Legible)
    (hu : Ends termEnds u) (hv : Ends termEnds v)
    (h : (magnitudeText s).toList ++ u = (magnitudeText t).toList ++ v) : s = t ∧ u = v := by
  obtain ⟨habs, hpowers, hw⟩ := magnitudeText_append_inj hs hsl htl hu hv h
  have hcoefficient : s.coefficient = t.coefficient := by
    rw [Int64.lt_iff_toInt_lt, Int64.lt_iff_toInt_lt, Int64.toInt_zero] at hsign
    exact Int64.toInt_inj.1 (by omega)
  obtain ⟨powers, c⟩ := s
  obtain ⟨powers', d⟩ := t
  exact ⟨by rw [show powers = powers' from hpowers, show c = d from hcoefficient], hw⟩

theorem readable_firstText {t : Monomial Symbol} (ht : t.powers.Over Unambiguous) :
    Readable firstText (fun t => t.powers.Over Legible) (Ends termEnds) t := by
  intro htl s u v hsl hu hv h
  have hminus {t : Monomial Symbol} (htl : t.powers.Over Legible) {w x : List Char} :
      (magnitudeText t).toList ++ w ≠ '-' :: x := by
    refine Begins.ne (begins_magnitudeText fun f hf => (htl f hf).wellNamed).append
      (begins_cons (P := (· = '-')).2 rfl) ?_
    rintro c hc rfl
    exact absurd hc (by decide)
  have hsign : t.coefficient < 0 ↔ s.coefficient < 0 := by
    unfold firstText at h
    by_cases htneg : t.coefficient < 0 <;> by_cases hsneg : s.coefficient < 0
    · exact iff_of_true htneg hsneg
    · rw [if_pos htneg, if_neg hsneg] at h
      exact absurd h.symm (hminus hsl)
    · rw [if_neg htneg, if_pos hsneg] at h
      exact absurd h (hminus htl)
    · exact iff_of_false htneg hsneg
  rw [firstText, firstText, List.append_assoc, List.append_assoc, if_congr hsign rfl rfl,
    List.append_cancel_left_eq] at h
  exact term_eq hsign ht htl hsl hu hv h

theorem readable_laterText {t : Monomial Symbol} (ht : t.powers.Over Unambiguous) :
    Readable laterText (fun t => t.powers.Over Legible) (Ends termEnds) t := by
  intro htl s u v hsl hu hv h
  simp only [laterText, List.cons_append, List.cons.injEq, true_and] at h
  have hsign : t.coefficient < 0 ↔ s.coefficient < 0 := by
    by_cases htneg : t.coefficient < 0 <;> by_cases hsneg : s.coefficient < 0 <;>
      simp [htneg, hsneg] at h ⊢
  exact term_eq hsign ht htl hsl hu hv h.2

/-! ## From terms to symbols -/

/-- What may stand behind a polynomial: what may stand behind a term, but not another term. -/
structure Closes (u : List Char) : Prop where
  ends : Ends termEnds u
  unsigned : ∀ c w, u = ' ' :: c :: w → c ≠ '+' ∧ c ≠ '-'

theorem Closes.of_ends (h : Ends [')', ','] u) : Closes u where
  ends := h.mono (by decide)
  unsigned := by
    rintro c w rfl
    exact absurd (ends_cons.1 h) (by decide)

/-- No mark of an operator begins like a sign. -/
theorem Closes.token {op : BinOp} : Closes (' ' :: (op.token.toList ++ u)) where
  ends := ends_cons.2 (by decide)
  unsigned c w h := by
    have hmark : Begins (fun c => c ≠ '+' ∧ c ≠ '-') op.token.toList := by
      cases op <;> exact begins_cons.2 (by decide)
    have hbegins := hmark.append (v := u)
    rw [(List.cons.inj h).2] at hbegins
    exact begins_cons.1 hbegins

/-- The zero that is written for no terms is no term. -/
theorem writtenTerms_inj {p q : Poly} (hp : p.Canonical) (hq : q.Canonical)
    (h : writtenTerms p = writtenTerms q) : p = q := by
  have hterms {p : Poly} (hp : p.Canonical) :
      (writtenTerms p).reverse.filter (·.coefficient ≠ 0) = p.terms := by
    unfold writtenTerms
    split
    · rename_i hnil
      rw [hnil]
      rfl
    · rw [List.reverse_reverse, List.filter_eq_self]
      exact fun t ht => decide_eq_true (hp.inOrder.nonzero t ht)
  exact congrArg Polynomial.mk (by rw [← hterms hp, h, hterms hq])

theorem readable_terms {ts : List (Monomial Symbol)} (hts : ∀ t ∈ ts, t.powers.Over Unambiguous) :
    Readable (joined firstText laterText) (fun ts => ts ≠ [] ∧ ∀ t ∈ ts, t.powers.Over Legible)
      Closes ts := by
  refine readable_joined (fun y w => ends_cons.2 (by decide)) (fun u hu => hu.ends) ?_
    (fun t ht => readable_laterText (hts t ht)) fun t ht => readable_firstText (hts t ht)
  intro t u w hu heq
  have hsign := hu.unsigned _ _ heq
  split at hsign
  · exact hsign.2 rfl
  · exact hsign.1 rfl

/-- Polynomials are readable if the symbols in them are. -/
theorem readable_renderPoly {p : Poly} (hp : p.Over Unambiguous) :
    Readable (fun p => (renderPoly p).toList) Polynomial.Legible Closes p := by
  intro hpl q u v hql hu hv h
  simp only [toList_renderPoly] at h
  obtain ⟨hterms, hw⟩ := readable_terms (over_writtenTerms hp)
    ⟨writtenTerms_ne_nil, over_writtenTerms hpl.symbols⟩ _ u v
    ⟨writtenTerms_ne_nil, over_writtenTerms hql.symbols⟩ hu hv h
  exact ⟨writtenTerms_inj hpl.reduced.canonical hql.reduced.canonical hterms, hw⟩

theorem readable_args {args : List Poly} (hargs : ∀ a ∈ args, a.Over Unambiguous) :
    Readable (fun args => (", ".intercalate (args.map renderPoly)).toList)
      (fun args => args ≠ [] ∧ ∀ a ∈ args, a.Legible) (Ends [')']) args := by
  refine readable_separated (fun w => .of_ends (ends_cons.2 (by decide)))
    (fun u hu => .of_ends (hu.mono (by decide))) ?_ fun a ha => readable_renderPoly (hargs a ha)
  rintro u w hu rfl
  exact absurd (ends_cons.1 hu) (by decide)

/-- Argument lists are readable, up to the parenthesis that closes them. -/
theorem renderArgs_append_inj {args args' : List Poly} (hargs : ∀ a ∈ args, a.Over Unambiguous)
    (hl : ∀ a ∈ args, a.Legible) (hl' : ∀ a ∈ args', a.Legible)
    (h : (", ".intercalate (renderArgs args)).toList ++ ')' :: u =
      (", ".intercalate (renderArgs args')).toList ++ ')' :: v) : args = args' ∧ u = v := by
  rw [renderArgs_eq_map, renderArgs_eq_map] at h
  -- An argument does not begin with the parenthesis that closes an empty list.
  have hempty {a : Poly} {as : List Poly} {w x : List Char} (ha : a.Legible) :
      (", ".intercalate ((a :: as).map renderPoly)).toList ++ w ≠ ')' :: x := by
    rw [toList_intercalate_eq_joined]
    exact Begins.ne (begins_renderPoly ha.wellNamed).append.append
      (begins_cons (P := (· = ')')).2 rfl) fun c hc => hc
  cases args with
  | nil =>
    cases args' with
    | nil => exact ⟨rfl, (List.cons.inj h).2⟩
    | cons b bs => exact absurd h.symm (hempty (hl' b List.mem_cons_self))
  | cons a as =>
    cases args' with
    | nil => exact absurd h (hempty (hl a List.mem_cons_self))
    | cons b bs =>
      obtain ⟨hlists, hw⟩ := readable_args hargs ⟨List.cons_ne_nil a as, hl⟩ (b :: bs) _ _
        ⟨List.cons_ne_nil b bs, hl'⟩ (ends_cons.2 (by decide)) (ends_cons.2 (by decide)) h
      exact ⟨hlists, (List.cons.inj hw).2⟩

theorem token_append_inj {op op' : BinOp}
    (h : op.token.toList ++ ' ' :: u = op'.token.toList ++ ' ' :: v) : op = op' ∧ u = v := by
  have hspace (op : BinOp) : op.token.toList.all (· != ' ') := by
    cases op <;> decide
  have hends {w : List Char} : Ends [' '] (' ' :: w) := ends_cons.2 (by decide)
  obtain ⟨htoken, hw⟩ := append_inj_of_all (by decide) (List.all_eq_true.1 (hspace op))
    (List.all_eq_true.1 (hspace op')) hends hends h
  refine ⟨?_, (List.cons.inj hw).2⟩
  have htoken := String.toList_inj.1 htoken
  cases op <;> cases op' <;> first | rfl | exact absurd htoken (by decide)

theorem binary_append_inj {op op' : BinOp} {p q p' q' : Poly} (hp : p.Over Unambiguous)
    (hq : q.Over Unambiguous) (hpl : p.Legible) (hql : q.Legible) (hpl' : p'.Legible)
    (hql' : q'.Legible)
    (h : (render (.binary op p q)).toList ++ u = (render (.binary op' p' q')).toList ++ v) :
    binary op p q = binary op' p' q' ∧ u = v := by
  have hlayout {op : BinOp} {p q : Poly} {w : List Char} :
      (render (.binary op p q)).toList ++ w = '(' :: ((renderPoly p).toList ++
        ' ' :: (op.token.toList ++ ' ' :: ((renderPoly q).toList ++ ')' :: w))) := by
    simp [render, String.toList_append]
  rw [hlayout, hlayout] at h
  obtain ⟨rfl, hafter⟩ := readable_renderPoly hp hpl p' _ _ hpl' .token .token (List.cons.inj h).2
  obtain ⟨rfl, hoperand⟩ := token_append_inj (List.cons.inj hafter).2
  obtain ⟨rfl, hclose⟩ := readable_renderPoly hq hql q' _ _ hql'
    (.of_ends (ends_cons.2 (by decide))) (.of_ends (ends_cons.2 (by decide))) hoperand
  exact ⟨rfl, (List.cons.inj hclose).2⟩

theorem call_append_inj {f f' : String} {args args' : List Poly} (hf : isIdentifier f)
    (hf' : isIdentifier f') (hargs : ∀ a ∈ args, a.Over Unambiguous) (hl : ∀ a ∈ args, a.Legible)
    (hl' : ∀ a ∈ args', a.Legible)
    (h : (render (.call f args)).toList ++ u = (render (.call f' args')).toList ++ v) :
    call f args = call f' args' ∧ u = v := by
  have hlayout {f : String} {args : List Poly} {w : List Char} :
      (render (.call f args)).toList ++ w =
        f.toList ++ '(' :: ((", ".intercalate (renderArgs args)).toList ++ ')' :: w) := by
    simp only [render, String.toList_append, List.append_assoc]
    rfl
  rw [hlayout, hlayout] at h
  have hends {w : List Char} : Ends ['('] ('(' :: w) := ends_cons.2 (by decide)
  obtain ⟨rfl, hopen⟩ := identifier_append_inj (by decide) hf hf' hends hends h
  obtain ⟨rfl, hw⟩ := renderArgs_append_inj hargs hl hl' (List.cons.inj hopen).2
  exact ⟨rfl, hw⟩

/-- Operations are told from names and calls by their first character. -/
theorem render_binary_ne {op : BinOp} {p q : Poly} {w : List Char} (hw : Begins (isWordChar ·) w) :
    (render (.binary op p q)).toList ++ u ≠ w := by
  have hopen : Begins (· = '(') (render (.binary op p q)).toList := by
    simp only [render, String.toList_append, List.append_assoc]
    exact begins_cons.2 rfl
  refine Begins.ne hopen.append hw ?_
  rintro c rfl
  decide

/-- Calls are told from names by what follows their first name. -/
theorem render_call_ne {f x : String} {args : List Poly} (hf : isIdentifier f)
    (hx : isIdentifier x) (hu : Ends symbolEnds u) :
    (render (.call f args)).toList ++ v ≠ x.toList ++ u := by
  intro h
  simp only [render, String.toList_append, List.append_assoc] at h
  have hends : Ends ('(' :: symbolEnds) u := hu.mono (by decide)
  obtain ⟨-, rfl⟩ := identifier_append_inj (by decide) hf hx (ends_cons.2 (by decide)) hends h
  exact absurd (ends_cons.1 hu) (by decide)

end

theorem Legible.of_binary {op : BinOp} {p q : Poly} (h : (binary op p q).Legible) :
    p.Legible ∧ q.Legible := by
  obtain ⟨hreduced, hnames⟩ := h
  cases hreduced with
  | binary hp hps hq hqs =>
    cases hnames with
    | binary hpn hqn => exact ⟨⟨⟨hp, hps⟩, hpn⟩, ⟨⟨hq, hqs⟩, hqn⟩⟩

theorem Legible.of_call {f : String} {args : List Poly} (h : (call f args).Legible) :
    isIdentifier f ∧ ∀ a ∈ args, a.Legible := by
  obtain ⟨hreduced, hnames⟩ := h
  cases hreduced with
  | call has hass =>
    cases hnames with
    | call hf han => exact ⟨hf, fun a ha => ⟨⟨has a ha, hass a ha⟩, han a ha⟩⟩

theorem Legible.of_named {x : String} (h : (named x).Legible) : isIdentifier x := by
  cases h.wellNamed with
  | named hx => exact hx

/-- Symbols are readable; by induction over their depth. -/
theorem unambiguous (s : Symbol) : s.Unambiguous := by
  have hword {x : String} {w : List Char} (hx : isIdentifier x) :
      Begins (isWordChar ·) (x.toList ++ w) :=
    ((begins_identifier hx).mono fun c hc => hc.2).append
  have hcall {f : String} {args : List Poly} {w : List Char} (hf : isIdentifier f) :
      Begins (isWordChar ·) ((render (.call f args)).toList ++ w) := by
    simp only [render, String.toList_append, List.append_assoc]
    exact hword hf
  induction s using induction with
  | named x =>
    intro hs t u v ht hu hv h
    have hx := hs.of_named
    cases t with
    | named y =>
      have hy := ht.of_named
      simp only [render] at h
      obtain ⟨rfl, hw⟩ := identifier_append_inj (by decide) hx hy hu hv h
      exact ⟨rfl, hw⟩
    | binary op p q => exact absurd h.symm (render_binary_ne (hword hx))
    | call g args => exact absurd h.symm (render_call_ne ht.of_call.1 hx hu)
  | binary op p q hp hq =>
    intro hs t u v ht hu hv h
    have hoperands := hs.of_binary
    cases t with
    | named y => exact absurd h (render_binary_ne (hword ht.of_named))
    | binary op' p' q' =>
      have hoperands' := ht.of_binary
      exact binary_append_inj hp hq hoperands.1 hoperands.2 hoperands'.1 hoperands'.2 h
    | call g args => exact absurd h (render_binary_ne (hcall ht.of_call.1))
  | call f args hargs =>
    intro hs t u v ht hu hv h
    have hf := hs.of_call
    cases t with
    | named y => exact absurd h (render_call_ne hf.1 ht.of_named hv)
    | binary op p q => exact absurd h.symm (render_binary_ne (hcall hf.1))
    | call g args' =>
      have hg := ht.of_call
      exact call_append_inj hf.1 hg.1 hargs hf.2 hg.2 h

end Symbol

namespace Polynomial

variable {p q : Poly}

/-- Wherever the text of a polynomial stands before something that does not go on with it, it is
    the text of that polynomial only. -/
theorem Legible.append_inj {u v : List Char} (hp : p.Legible) (hq : q.Legible)
    (hu : Symbol.Closes u) (hv : Symbol.Closes v)
    (h : p.render.toList ++ u = q.render.toList ++ v) : p = q ∧ u = v :=
  Symbol.readable_renderPoly (fun _ _ _ _ => Symbol.unambiguous _) hp q u v hq hu hv h

/-- **Rendering is unambiguous.**  Polynomials with the same text are equal, down to the operations
    and calls in them, if everything in them is named by identifiers. -/
theorem DeeplyBuilt.eq_of_render (hp : p.DeeplyBuilt) (hq : q.DeeplyBuilt) (hpn : p.WellNamed)
    (hqn : q.WellNamed) (h : p.render = q.render) : p = q := by
  have hclose : Symbol.Closes [] := .of_ends ends_nil
  exact (Legible.append_inj ⟨hp.reduced, hpn⟩ ⟨hq.reduced, hqn⟩ hclose hclose (by rw [h])).1

/-- An unknown that is named like a number is written like that number. -/
example : (named "2").render = (const 2 : Poly).render := by decide +kernel

/-- A product and the difference of squares: an operation, a call, exponents and a sign. -/
theorem eq_of_render_squares :
    let x : Poly := named "x_0"
    let f : Poly := call "f" [BinOp.apply .div (named "y") (const 2)]
    ((x + f) * (x - f)).DeeplyBuilt ∧ (x.pow 2 - f.pow 2).DeeplyBuilt ∧
      ((x + f) * (x - f)).WellNamed ∧ (x.pow 2 - f.pow 2).WellNamed ∧
      ((x + f) * (x - f)).render = "-f((y / 2))^2 + x_0^2" ∧
      (x + f) * (x - f) = x.pow 2 - f.pow 2 := by
  intro x f
  have hx : x.DeeplyBuilt := .named
  have hf : f.DeeplyBuilt := .call (List.forall_mem_singleton.2 (.apply nofun .named .const))
  have hxn : x.WellNamed := .ofSymbol (.named (by decide))
  have hhalf : (BinOp.apply .div (named "y") (const 2)).WellNamed :=
    .ofSymbol (.binary (.ofSymbol (.named (by decide))) .const)
  have hfn : f.WellNamed := .ofSymbol (.call (by decide) (List.forall_mem_singleton.2 hhalf))
  have hp : ((x + f) * (x - f)).DeeplyBuilt := .mul nofun (.add hx hf) (.sub hx hf)
  have hq : (x.pow 2 - f.pow 2).DeeplyBuilt := .sub (.pow nofun hx) (.pow nofun hf)
  have hpn : ((x + f) * (x - f)).WellNamed := .mul (.add hxn hfn) (.sub hxn hfn)
  have hqn : (x.pow 2 - f.pow 2).WellNamed := .sub (.pow hxn) (.pow hfn)
  exact ⟨hp, hq, hpn, hqn, by decide +kernel, hp.eq_of_render hq hpn hqn (by decide +kernel)⟩

end Polynomial

end QuantumLowering
