import Metamorphosis.Proofs.Source.Reader

namespace Metamorphosis

section Followed

variable {β γ : Type} {e : List Char}

/-- A text at which a line ends. -/
def LineEnd (e : List Char) : Prop :=
  ∀ c ∈ e.head?, isLineChar c = false

theorem lineEnd_cons {c : Char} (h : isLineChar c = false) (rest : List Char) :
    LineEnd (c :: rest) := by
  intro d hd
  rwa [← Option.some.inj hd]

def Failure.followed (e : List Char) (f : Failure) : Failure :=
  { f with rest := f.rest ++ e }

/-- What is read when `e` follows the text. -/
def followed (e : List Char) (more : β → β) : Except Failure β → Except Failure β
  | .ok b => .ok (more b)
  | .error f => .error (f.followed e)

theorem followed_bind {more : β → β} {more' : γ → γ} (r : Except Failure β)
    {k k' : β → Except Failure γ} (h : ∀ b, k (more b) = followed e more' (k' b)) :
    followed e more r >>= k = followed e more' (r >>= k') := by
  cases r with
  | error f => rfl
  | ok b => exact h b

theorem followed_labelled {more : β → β} (what : Expected) (r : Except Failure β) :
    labelled what (followed e more r) = followed e more (labelled what r) := by
  cases r with
  | error f => rfl
  | ok b => rfl

end Followed

section Texts

variable {e : List Char} {test : Char → Bool}

theorem takeWhile_followed (htest : ∀ c, isLineChar c = false → test c = false) (he : LineEnd e)
    (s : List Char) : (s ++ e).takeWhile test = s.takeWhile test := by
  induction s with
  | nil =>
    cases e with
    | nil => rfl
    | cons c e => exact List.takeWhile_cons_of_neg (by simp [htest c (he c rfl)])
  | cons c s ih =>
    cases hc : test c with
    | true => rw [List.cons_append, List.takeWhile_cons_of_pos hc, List.takeWhile_cons_of_pos hc, ih]
    | false =>
      rw [List.cons_append, List.takeWhile_cons_of_neg (by simp [hc]),
        List.takeWhile_cons_of_neg (by simp [hc])]

theorem dropWhile_followed (htest : ∀ c, isLineChar c = false → test c = false) (he : LineEnd e)
    (s : List Char) : (s ++ e).dropWhile test = s.dropWhile test ++ e := by
  have htake := takeWhile_followed htest he s
  have hall : (s ++ e).takeWhile test ++ (s ++ e).dropWhile test = s ++ e :=
    List.takeWhile_append_dropWhile
  have hs : s.takeWhile test ++ s.dropWhile test = s := List.takeWhile_append_dropWhile
  have hboth : s.takeWhile test ++ (s ++ e).dropWhile test =
      s.takeWhile test ++ (s.dropWhile test ++ e) := by
    rw [← List.append_assoc, hs, ← htake, hall]
  exact List.append_cancel_left hboth

theorem isSpace_of_not_isLineChar (c : Char) (h : isLineChar c = false) : isSpace c = false := by
  simp only [isLineChar, Bool.and_eq_false_iff, bne_eq_false_iff_eq] at h
  rcases h with rfl | rfl <;> rfl

theorem isNameChar_of_not_isLineChar (c : Char) (h : isLineChar c = false) :
    isNameChar c = false := by
  simp only [isLineChar, Bool.and_eq_false_iff, bne_eq_false_iff_eq] at h
  rcases h with rfl | rfl <;> rfl

theorem skipSpaces_followed (he : LineEnd e) (s : List Char) :
    skipSpaces (s ++ e) = skipSpaces s ++ e :=
  dropWhile_followed isSpace_of_not_isLineChar he s

theorem afterWord?_followed {word : List Char} (hword : word.all isLineChar = true)
    (he : LineEnd e) (s : List Char) :
    afterWord? word (s ++ e) = (afterWord? word s).map (· ++ e) := by
  induction word generalizing s with
  | nil => rfl
  | cons c word ih =>
    rw [List.all_cons, Bool.and_eq_true] at hword
    obtain ⟨hc, hword⟩ := hword
    cases s with
    | nil =>
      cases e with
      | nil => rfl
      | cons d e =>
        have hd : isLineChar d = false := he d rfl
        have hne : (c == d) = false := by
          apply beq_false_of_ne
          rintro rfl
          rw [hc] at hd
          cases hd
        simp [afterWord?, hne]
    | cons d s =>
      simp only [List.cons_append, afterWord?]
      split
      next => exact ih hword s
      next => rfl

end Texts

section Readers

variable {α : Type}

/-- The text that was left, with more text after it. -/
def leaving (e : List Char) (x : α × List Char) : α × List Char :=
  (x.1, x.2 ++ e)

/-- The reader does not look past the end of a line. -/
def StaysOnLine (read : Reader α) : Prop :=
  ∀ s e, LineEnd e → read (s ++ e) = followed e (leaving e) (read s)

def StaysOnLine? (read : OptReader α) : Prop :=
  ∀ s e, LineEnd e → read (s ++ e) = followed e (Option.map (leaving e)) (read s)

theorem readName?_followed {e : List Char} (he : LineEnd e) (s : List Char) :
    readName? (s ++ e) = (readName? s).map (leaving e) := by
  unfold readName?
  rw [takeWhile_followed isNameChar_of_not_isLineChar he,
    dropWhile_followed isNameChar_of_not_isLineChar he]
  split
  next => rfl
  next => rfl

theorem readName_stays : StaysOnLine readName := by
  intro s e he
  unfold readName
  rw [readName?_followed he]
  cases readName? s with
  | none => rfl
  | some x => rfl

theorem readSymbol_stays {sign : String} (hsign : sign.toList.all isLineChar = true) :
    StaysOnLine (readSymbol sign) := by
  intro s e he
  unfold readSymbol
  rw [skipSpaces_followed he, afterWord?_followed hsign he]
  cases afterWord? sign.toList (skipSpaces s) with
  | none => rfl
  | some t => rfl

theorem readMany_stays {item : OptReader α} (h : StaysOnLine? item) :
    StaysOnLine (readMany item) := by
  intro s e he
  have hlength : ∀ s t : List Char, (t ++ e).length < (s ++ e).length ↔ t.length < s.length := by
    intro s t
    simp only [List.length_append]
    omega
  fun_induction readMany item s with
  | case1 s f hitem =>
    rw [readMany, h s e he, hitem]
    rfl
  | case2 s hitem =>
    rw [readMany, h s e he, hitem]
    rfl
  | case3 s a t hitem hlt f hmany ih =>
    rw [hmany] at ih
    rw [readMany, h s e he, hitem]
    simp only [followed, Option.map_some, leaving, (hlength s t).mpr hlt, if_true, ih]
  | case4 s a t hitem hlt as u hmany ih =>
    rw [hmany] at ih
    rw [readMany, h s e he, hitem]
    simp only [followed, Option.map_some, leaving, (hlength s t).mpr hlt, if_true, ih]
  | case5 s a t hitem hlt =>
    rw [readMany, h s e he, hitem]
    simp only [followed, Option.map_some, leaving, mt (hlength s t).mp hlt, if_false]

/-- A first item and more of them. -/
theorem thenMany_followed {more : OptReader α} (h : StaysOnLine? more) {e : List Char}
    (he : LineEnd e) (missing : Failure) (o : Option (α × List Char)) :
    thenMany more (missing.followed e) (o.map (leaving e)) =
      followed e (leaving e) (thenMany more missing o) := by
  cases o with
  | none => rfl
  | some x =>
    simp only [thenMany, Option.map_some, Option.getD_some, leaving]
    rw [readMany_stays h x.2 e he]
    cases readMany more x.2 with
    | error f => rfl
    | ok r => rfl

theorem readSome_stays {item : OptReader α} (h : StaysOnLine? item) {missing : List Char → Failure}
    (hmissing : ∀ s e, LineEnd e → missing (s ++ e) = (missing s).followed e) :
    StaysOnLine (readSome item missing) := by
  intro s e he
  rw [readSome_eq, readSome_eq, h s e he, hmissing s e he]
  exact followed_bind (item s) fun o => thenMany_followed h he (missing s) o

theorem readBehind_stays {sign : String} (hsign : sign.toList.all isLineChar = true)
    {item : OptReader α} (h : StaysOnLine? item) : StaysOnLine? (readBehind sign item) := by
  intro s e he
  unfold readBehind
  rw [skipSpaces_followed he, afterWord?_followed hsign he]
  cases afterWord? sign.toList (skipSpaces s) with
  | none => rfl
  | some t =>
    show item (skipSpaces (t ++ e)) = followed e _ (item (skipSpaces t))
    rw [skipSpaces_followed he, h _ e he]

theorem readSeparated_stays {sign : String} (hsign : sign.toList.all isLineChar = true)
    {item : OptReader α} (h : StaysOnLine? item) : StaysOnLine (readSeparated sign item) := by
  intro s e he
  rw [readSeparated_eq, readSeparated_eq, h s e he]
  exact followed_bind (item s) fun o => thenMany_followed (readBehind_stays hsign h) he ⟨s, [.glyphName]⟩ o

end Readers

section Rules

theorem noElement_followed (s e : List Char) (he : LineEnd e) :
    noElement (s ++ e) = (noElement s).followed e := by
  simp only [noElement, skipSpaces_followed he, Failure.followed]

theorem staysOnLine_skipSpaces {α : Type} {read : Reader α} (h : StaysOnLine read) :
    StaysOnLine fun s => read (skipSpaces s) := by
  intro s e he
  show read (skipSpaces (s ++ e)) = _
  rw [skipSpaces_followed he, h _ e he]

theorem readElement?_eq {s : List Char} (h : s.head? ≠ some '@') :
    readElement? s = .ok ((readName? s).map fun x => (.glyph x.1, x.2)) := by
  unfold readElement?
  split
  next t => exact absurd rfl h
  next => rfl

theorem readElement?_stays : StaysOnLine? readElement? := by
  intro s e he
  by_cases hs : ∃ t, s = '@' :: t
  · obtain ⟨t, rfl⟩ := hs
    show (readName (t ++ e) >>= fun x => .ok (some (Element.classRef x.1, x.2))) = _
    rw [readName_stays t e he]
    exact followed_bind (readName t) fun x => rfl
  · have hhead : s.head? ≠ some '@' := fun h => hs (List.head?_eq_some_iff.mp h)
    have hfollowed : (s ++ e).head? ≠ some '@' := by
      cases s with
      | nil =>
        intro h
        cases he '@' h
      | cons c s => exact hhead
    rw [readElement?_eq hhead, readElement?_eq hfollowed, readName?_followed he]
    cases readName? s with
    | none => rfl
    | some x => rfl

theorem readElement_stays : StaysOnLine readElement := by
  intro s e he
  unfold readElement
  rw [readElement?_stays s e he]
  refine followed_bind (readElement? s) fun o => ?_
  cases o with
  | none => rfl
  | some x => rfl

theorem readPattern_stays : StaysOnLine readPattern := by
  have hitem : StaysOnLine? fun s => readElement? (skipSpaces s) := by
    intro s e he
    show readElement? (skipSpaces (s ++ e)) = _
    rw [skipSpaces_followed he, readElement?_stays _ e he]
  intro s e he
  unfold readPattern
  rw [readSome_stays hitem noElement_followed s e he, followed_labelled]

theorem readFirstSide_stays : StaysOnLine readFirstSide := by
  have hitem : StaysOnLine? readFirstSideElement? := by
    intro s e he
    unfold readFirstSideElement?
    rw [skipSpaces_followed he, readElement?_stays _ e he]
    refine followed_bind (readElement? (skipSpaces s)) fun o => ?_
    cases o with
    | none => rfl
    | some x =>
      obtain ⟨element, t⟩ := x
      cases element with
      | classRef name => rfl
      | glyph name =>
        show (pure (if name == betweenWord then none else some (Element.glyph name, t ++ e)) :
          Except Failure _) = followed e _ (pure (if name == betweenWord then none else some _))
        cases name == betweenWord with
        | true => rfl
        | false => rfl
  intro s e he
  unfold readFirstSide
  rw [readSome_stays hitem _ s e he, followed_labelled]
  intro s e he
  rw [skipSpaces_followed he, readName?_followed he]
  cases readName? (skipSpaces s) with
  | none => exact noElement_followed s e he
  | some x => rfl

theorem readAs_stays {α β : Type} {read : Reader α} (h : StaysOnLine read) (as : α → β) :
    StaysOnLine (readAs read as) := by
  intro s e he
  unfold readAs
  rw [h s e he]
  exact followed_bind (read s) fun x => rfl

theorem readKeyword_stays {α : Type} {words : List (String × α)}
    (hwords : words.all (fun w => w.1.toList.all isLineChar) = true) (missing : Expected) :
    StaysOnLine (readKeyword words missing) := by
  intro s e he
  have hkeyword : readKeyword? words (s ++ e) = (readKeyword? words s).map (leaving e) := by
    unfold readKeyword?
    induction words with
    | nil => rfl
    | cons w words ih =>
      obtain ⟨word, a⟩ := w
      rw [List.all_cons, Bool.and_eq_true] at hwords
      obtain ⟨hw, hwords⟩ := hwords
      have hword : afterWord? word.toList (s ++ e) = (afterWord? word.toList s).map (· ++ e) :=
        afterWord?_followed hw he s
      simp only [List.findSome?_cons, ih hwords, hword]
      cases afterWord? word.toList s with
      | none => rfl
      | some t => rfl
  unfold readKeyword
  rw [hkeyword]
  cases readKeyword? words s with
  | none => rfl
  | some x => rfl

theorem ContextKeyword.read_stays (k : ContextKeyword) : StaysOnLine k.read := by
  unfold ContextKeyword.read
  cases k with
  | after => exact readAs_stays readPattern_stays _
  | before => exact readAs_stays readPattern_stays _
  | when => exact readAs_stays readPattern_stays _
  | between =>
    have hword : StaysOnLine (readSymbol betweenWord) := readSymbol_stays rfl
    intro s e he
    simp only [readFirstSide_stays s e he]
    refine followed_bind (readFirstSide s) fun x => ?_
    simp only [leaving, hword _ e he]
    refine followed_bind (readSymbol betweenWord x.2) fun y => ?_
    simp only [leaving, readPattern_stays _ e he]
    exact followed_bind (readPattern y.2) fun z => rfl

theorem readContext_stays : StaysOnLine readContext := by
  intro s e he
  have hwords : contextKeywords.all (fun w => w.1.toList.all isLineChar) = true := rfl
  unfold readContext
  simp only [readKeyword_stays hwords _ s e he]
  exact followed_bind _ fun x => x.1.read_stays x.2 e he

theorem readPair?_stays : StaysOnLine? readPair? := by
  intro s e he
  unfold readPair?
  rw [readElement?_stays s e he]
  refine followed_bind (readElement? s) fun o => ?_
  cases o with
  | none => rfl
  | some x =>
    show (readSymbol "=>" (x.2 ++ e) >>= _) = _
    rw [readSymbol_stays rfl x.2 e he]
    refine followed_bind (readSymbol "=>" x.2) fun y => ?_
    simp only [leaving, skipSpaces_followed he, readElement_stays _ e he, followed_labelled]
    exact followed_bind _ fun z => rfl

theorem readArrow_stays : StaysOnLine readArrow := by
  intro s e he
  unfold readArrow
  rw [skipSpaces_followed he, afterWord?_followed rfl he]
  cases afterWord? ">".toList (skipSpaces s) with
  | none => exact readSymbol_stays rfl s e he
  | some t => rfl

theorem readAround_stays {α β γ : Type} {left : Reader α} (hleft : StaysOnLine left)
    {sign : Reader Unit} (hsign : StaysOnLine sign) {right : Reader β} (hright : StaysOnLine right)
    (rule : α → β → Nat → γ) (line : Nat) : StaysOnLine (readAround left sign right rule line) := by
  intro s e he
  unfold readAround
  simp only [hleft s e he]
  refine followed_bind (left s) fun x => ?_
  simp only [leaving, hsign _ e he]
  refine followed_bind (sign x.2) fun y => ?_
  simp only [leaving, hright _ e he]
  exact followed_bind (right y.2) fun z => rfl

theorem readNames_stays : StaysOnLine readNames := by
  refine readSome_stays ?_ noElement_followed
  intro s e he
  show Except.ok (readName? (skipSpaces (s ++ e))) = _
  rw [skipSpaces_followed he, readName?_followed he]
  rfl

theorem readMembers_stays : StaysOnLine readMembers := by
  intro s e he
  have hclose : StaysOnLine (readSymbol "]") := readSymbol_stays rfl
  unfold readMembers
  rw [skipSpaces_followed he, afterWord?_followed rfl he]
  cases afterWord? "[".toList (skipSpaces s) with
  | none => exact readNames_stays s e he
  | some t =>
    simp only [Option.map_some, readNames_stays t e he]
    refine followed_bind (readNames t) fun x => ?_
    simp only [leaving, hclose _ e he]
    exact followed_bind (readSymbol "]" x.2) fun y => rfl

theorem readDefinition_stays : StaysOnLine readDefinition := by
  intro s e he
  have hsign : StaysOnLine (readSymbol "=") := readSymbol_stays rfl
  unfold readDefinition
  rw [takeWhile_followed isSpace_of_not_isLineChar he]
  split
  next => rfl
  next =>
    simp only [skipSpaces_followed he, readName_stays _ e he]
    refine followed_bind (readName (skipSpaces s)) fun x => ?_
    simp only [leaving, hsign _ e he]
    refine followed_bind (readSymbol "=" x.2) fun y => ?_
    simp only [leaving, readMembers_stays _ e he]
    exact followed_bind (readMembers y.2) fun z => rfl

end Rules

end Metamorphosis
