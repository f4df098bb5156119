import Metamorphosis.Proofs.Source.Correspondence
import Metamorphosis.Proofs.Source.Counted

namespace Metamorphosis

section Texts

variable {s t : List Char}

/-- The text with a carriage return in front of every line feed. -/
def withReturns (s : List Char) : List Char :=
  s.flatMap fun c => if c = '\n' then ['\r', '\n'] else [c]

theorem withReturns_break (s : List Char) : withReturns ('\n' :: s) = '\r' :: '\n' :: withReturns s :=
  rfl

theorem withReturns_cons {c : Char} (h : c ≠ '\n') (s : List Char) :
    withReturns (c :: s) = c :: withReturns s := by
  simp [withReturns, h]

theorem withReturns_append (s t : List Char) :
    withReturns (s ++ t) = withReturns s ++ withReturns t :=
  List.flatMap_append

theorem withReturns_of_line (h : '\n' ∉ s) : withReturns s = s := by
  induction s with
  | nil => rfl
  | cons c s ih =>
    have hc : c ≠ '\n' := (List.ne_of_not_mem_cons h).symm
    rw [withReturns_cons hc, ih (List.not_mem_of_not_mem_cons h)]

theorem count_withReturns (s : List Char) : (withReturns s).count '\n' = s.count '\n' := by
  induction s with
  | nil => rfl
  | cons c s ih =>
    by_cases hc : c = '\n'
    · rw [hc, withReturns_break, List.count_cons_of_ne (by decide), List.count_cons_self,
        List.count_cons_self, ih]
    · rw [withReturns_cons hc, List.count_cons_of_ne hc, List.count_cons_of_ne hc, ih]

/-- A test that does not tell the two characters apart holds as far in both texts. -/
theorem dropWhile_withReturns {test : Char → Bool} (h : test '\r' = test '\n') (s : List Char) :
    (withReturns s).dropWhile test = withReturns (s.dropWhile test) := by
  induction s with
  | nil => rfl
  | cons c s ih =>
    by_cases hc : c = '\n'
    · rw [hc, withReturns_break]
      cases hbreak : test '\n' with
      | true =>
        rw [List.dropWhile_cons_of_pos (h.trans hbreak), List.dropWhile_cons_of_pos hbreak,
          List.dropWhile_cons_of_pos hbreak, ih]
      | false =>
        rw [List.dropWhile_cons_of_neg (by simp [h, hbreak]),
          List.dropWhile_cons_of_neg (by simp [hbreak]), withReturns_break]
    · rw [withReturns_cons hc]
      cases htest : test c with
      | true => rw [List.dropWhile_cons_of_pos htest, List.dropWhile_cons_of_pos htest, ih]
      | false =>
        rw [List.dropWhile_cons_of_neg (by simp [htest]),
          List.dropWhile_cons_of_neg (by simp [htest]), withReturns_cons hc]

theorem lineEnd_withReturns (h : LineEnd s) : LineEnd (withReturns s) := by
  cases s with
  | nil => exact h
  | cons c s =>
    by_cases hc : c = '\n'
    · rw [hc, withReturns_break]
      exact lineEnd_cons rfl _
    · rw [withReturns_cons hc]
      exact lineEnd_cons (h c rfl) _

/-- A line ends at the end of the text or at a line feed. -/
theorem dropWhile_isLineChar (h : '\r' ∉ s) :
    s.dropWhile isLineChar = [] ∨ ∃ t, s.dropWhile isLineChar = '\n' :: t := by
  induction s with
  | nil => exact .inl rfl
  | cons c s ih =>
    by_cases hbreak : c = '\n'
    · exact .inr ⟨s, by rw [hbreak]; rfl⟩
    · have hreturn : c ≠ '\r' := (List.ne_of_not_mem_cons h).symm
      have hline : isLineChar c = true := by simp [isLineChar, hbreak, hreturn]
      rw [List.dropWhile_cons_of_pos hline]
      exact ih (List.not_mem_of_not_mem_cons h)

end Texts

section Comments

variable {s : List Char}

theorem afterComment?_withReturns (h : '\r' ∉ s) :
    afterComment? (withReturns s) = (afterComment? s).map withReturns := by
  by_cases hsign : ∃ t, s = '#' :: t
  · obtain ⟨t, rfl⟩ := hsign
    have ht : '\r' ∉ t := List.not_mem_of_not_mem_cons h
    show commentEnd? ((withReturns t).dropWhile isLineChar) =
      (commentEnd? (t.dropWhile isLineChar)).map withReturns
    rw [dropWhile_withReturns rfl]
    rcases dropWhile_isLineChar ht with hend | ⟨u, hend⟩
    · rw [hend]
      rfl
    · rw [hend]
      rfl
  · have hnone : ∀ {t : List Char}, (∀ u, t ≠ '#' :: u) → afterComment? t = none := by
      intro t ht
      unfold afterComment?
      split
      next u => exact absurd rfl (ht u)
      next => rfl
    have hreturns : ∀ u, withReturns s ≠ '#' :: u := by
      intro u hu
      cases s with
      | nil => cases hu
      | cons c s =>
        by_cases hc : c = '\n'
        · rw [hc, withReturns_break] at hu
          cases (List.cons.inj hu).1
        · rw [withReturns_cons hc] at hu
          exact hsign ⟨s, by rw [(List.cons.inj hu).1]⟩
    rw [hnone hreturns, hnone fun u hu => hsign ⟨u, hu⟩]
    rfl

theorem skipBlanks_withReturns (h : '\r' ∉ s) :
    skipBlanks (withReturns s) = withReturns (skipBlanks s) := by
  fun_induction skipBlanks s with
  | case1 s t hcomment hlt ih =>
    have hdrop : '\r' ∉ s.dropWhile isBlank := fun hc =>
      h ((List.dropWhile_suffix isBlank).mem hc)
    have ht : '\r' ∉ t := fun hc => hdrop ((afterComment?_suffix hcomment).mem hc)
    rw [skipBlanks_eq, dropWhile_withReturns rfl, afterComment?_withReturns hdrop, hcomment]
    exact ih ht
  | case2 s hcomment =>
    have hdrop : '\r' ∉ s.dropWhile isBlank := fun hc =>
      h ((List.dropWhile_suffix isBlank).mem hc)
    rw [skipBlanks_eq, dropWhile_withReturns rfl, afterComment?_withReturns hdrop, hcomment]
    rfl

end Comments

section Places

variable {s t : List Char}

/-- The same place in a text without carriage returns and in the text with them. -/
def Returned (s t : List Char) : Prop :=
  '\r' ∉ s ∧ t = withReturns s

theorem head?_withReturns (h : ∀ c ∈ s.head?, c ≠ '\n') : (withReturns s).head? = s.head? := by
  cases s with
  | nil => rfl
  | cons c s => rw [withReturns_cons (h c rfl), List.head?_cons, List.head?_cons]

theorem isBlank_head_skipBlanks (s : List Char) :
    ∀ c ∈ (skipBlanks s).head?, isBlank c = false := by
  fun_induction skipBlanks s with
  | case1 s t hcomment hlt ih => exact ih
  | case2 s hcomment =>
    intro c hc
    have hdrop := List.head?_dropWhile_not isBlank s
    rw [hc] at hdrop
    simpa using hdrop

theorem returned_blanks (h : Returned s t) :
    Returned (skipBlanks s) (skipBlanks t) ∧ (skipBlanks s).head? = (skipBlanks t).head? := by
  obtain ⟨hs, rfl⟩ := h
  have hskip := skipBlanks_withReturns hs
  have hhead : ∀ c ∈ (skipBlanks s).head?, c ≠ '\n' := by
    rintro c hc rfl
    cases isBlank_head_skipBlanks s '\n' hc
  refine ⟨⟨fun hc => hs ((skipBlanks_suffix s).mem hc), hskip⟩, ?_⟩
  rw [hskip, head?_withReturns hhead]

/-- What is read on a line does not depend on how the line ends. -/
theorem returned_inline {α : Type} {read : Reader α} (hstays : StaysOnLine read)
    (hleaves : LeavesEnd read) (h : Returned s t) :
    SameReading id Returned (read s) (read t) := by
  obtain ⟨hs, rfl⟩ := h
  obtain ⟨l, e, rfl, hl, he⟩ : ∃ l e, s = l ++ e ∧ '\n' ∉ l ∧ LineEnd e := by
    refine ⟨s.takeWhile isLineChar, s.dropWhile isLineChar,
      List.takeWhile_append_dropWhile.symm, ?_, ?_⟩
    · intro hbreak
      cases List.all_eq_true.mp List.all_takeWhile '\n' hbreak
    · intro c hc
      have hdrop := List.head?_dropWhile_not isLineChar s
      rw [hc] at hdrop
      simpa using hdrop
  rw [withReturns_append, withReturns_of_line hl, hstays l e he,
    hstays l _ (lineEnd_withReturns he)]
  cases hread : read l with
  | error f => exact .error _ _
  | ok x =>
    have hrest : x.2 <:+ l := hleaves l x hread
    have hx : '\n' ∉ x.2 := fun hc => hl (hrest.mem hc)
    refine .ok x.1 ⟨?_, ?_⟩
    · intro hc
      rcases List.mem_append.mp hc with hc | hc
      · exact hs (List.mem_append_left e (hrest.mem hc))
      · exact hs (List.mem_append_right l hc)
    · rw [withReturns_append, withReturns_of_line hx]

theorem returned_break (h : Returned s t) :
    SameReading id Returned (readBreak s) (readBreak t) := by
  obtain ⟨hs, rfl⟩ := h
  cases s with
  | nil => exact .ok () ⟨hs, rfl⟩
  | cons c s =>
    have hrest : '\r' ∉ s := List.not_mem_of_not_mem_cons hs
    by_cases hbreak : c = '\n'
    · rw [hbreak, withReturns_break]
      exact .ok () ⟨hrest, rfl⟩
    by_cases hclose : c = '\x7d'
    · rw [hclose] at hs ⊢
      exact .ok () ⟨hs, rfl⟩
    have hreturn : c ≠ '\r' := (List.ne_of_not_mem_cons hs).symm
    -- only a comment is left to end the line
    have hother : ∀ u, readBreak (c :: u) =
        ((afterComment? (c :: u)).map fun v => .ok ((), v)).getD
          (.error ⟨c :: u, [.endOfLine]⟩) := by
      intro u
      unfold readBreak
      split
      next hu => cases hu
      next v hu => exact absurd (List.cons.inj hu).1 hbreak
      next v hu => exact absurd (List.cons.inj hu).1 hreturn
      next v hu => exact absurd (List.cons.inj hu).1 hclose
      next =>
        cases afterComment? (c :: u) with
        | none => rfl
        | some v => rfl
    rw [withReturns_cons hbreak, hother, hother, ← withReturns_cons hbreak,
      afterComment?_withReturns hs]
    cases hcomment : afterComment? (c :: s) with
    | none => exact .error _ _
    | some u => exact .ok () ⟨fun hc => hs ((afterComment?_suffix hcomment).mem hc), rfl⟩

theorem returned_ended (h : Returned s t) : SameReading id Returned (readEnd s) (readEnd t) := by
  obtain ⟨hs, rfl⟩ := h
  unfold readEnd skipSpaces
  rw [dropWhile_withReturns rfl]
  exact returned_break ⟨fun hc => hs ((skipSpaces_suffix s).mem hc), rfl⟩

theorem returned_tail {c : Char} (hc : isLineChar c = true) (h : Returned (c :: s) (c :: t)) :
    Returned s t := by
  obtain ⟨hs, ht⟩ := h
  have hbreak : c ≠ '\n' := by
    rintro rfl
    cases hc
  rw [withReturns_cons hbreak] at ht
  exact ⟨List.not_mem_of_not_mem_cons hs, (List.cons.inj ht).2⟩

theorem returned_correspondence (n : Nat) : Correspondence n n id Returned Returned where
  at_of_on := id
  blanks := returned_blanks
  inline := returned_inline
  ended := returned_ended
  tail := returned_tail
  line h := by
    obtain ⟨_, rfl⟩ := h
    rw [lineOf, lineOf, count_withReturns, id]

end Places

section Parsing

theorem RuleFile.mapLines_id (file : RuleFile) : file.mapLines id = file := by
  simp [RuleFile.mapLines]

/-- Carriage returns in front of all line feeds change neither whether a text is a rule file nor
which one. -/
theorem parse_withReturns (source : String) (h : '\r' ∉ source.toList) :
    (RuleFile.parse (String.ofList (withReturns source.toList))).toOption =
      (RuleFile.parse source).toOption := by
  have hsame := (returned_correspondence (source.toList.count '\n' + 1)).readParts_same ⟨h, rfl⟩
  rw [toOption_parse, toOption_parse, String.toList_ofList, count_withReturns, hsame]
  cases readParts (source.toList.count '\n' + 1) source.toList with
  | error e => rfl
  | ok file => exact congrArg some (RuleFile.mapLines_id file)

/-- Comments after a definition and at the end of the text, a blank line, and two rules. -/
theorem parse_withReturns_block :
    '\r' ∉ "@class v = a e # vowels\n\n@simple \x7b\n a -> b\n @v -> @v\n\x7d # end".toList ∧
      (RuleFile.parse (String.ofList (withReturns
        "@class v = a e # vowels\n\n@simple \x7b\n a -> b\n @v -> @v\n\x7d # end".toList))).toOption =
      (RuleFile.parse
        "@class v = a e # vowels\n\n@simple \x7b\n a -> b\n @v -> @v\n\x7d # end").toOption :=
  ⟨by decide, parse_withReturns _ (by decide)⟩

end Parsing

end Metamorphosis
