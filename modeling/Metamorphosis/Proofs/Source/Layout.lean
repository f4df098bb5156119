import Metamorphosis.Proofs.Source.Correspondence
import Metamorphosis.Proofs.Source.Counted

namespace Metamorphosis

section Breaks

/-- Whether a line ends at a lone carriage return shows before the next line. -/
theorem commentEnd?_break (l : List Char) :
    (∀ r, commentEnd? (l ++ '\n' :: r) = none) ∨
      ∀ r, commentEnd? (l ++ '\n' :: r) = some (l ++ '\n' :: r) := by
  by_cases hlone : ∃ c t, l = '\r' :: c :: t ∧ c ≠ '\n'
  · obtain ⟨c, t, rfl, hc⟩ := hlone
    refine .inl fun r => ?_
    unfold commentEnd?
    split
    next u hu =>
      rw [List.cons_append, List.cons_append] at hu
      exact absurd (List.cons.inj (List.cons.inj hu).2).1 hc
    next => rfl
    next u _ hr => exact absurd rfl (hr (c :: t ++ '\n' :: r))
  · refine .inr fun r => ?_
    unfold commentEnd?
    split
    next u hu => rw [hu]
    next u hlf hu =>
      cases l with
      | nil => cases hu
      | cons c t =>
        rw [List.cons_append] at hu
        obtain ⟨rfl, rfl⟩ := List.cons.inj hu
        cases t with
        | nil => exact absurd rfl (hlf r)
        | cons d t =>
          by_cases hd : d = '\n'
          · exact absurd (by rw [hd]; rfl) (hlf (t ++ '\n' :: r))
          · exact absurd ⟨d, t, rfl, hd⟩ hlone
    next => rfl

/-- A comment ends with its line at the latest. -/
theorem afterComment?_break (l : List Char) :
    (∀ r, afterComment? (l ++ '\n' :: r) = none) ∨
      ∃ l', l'.length < l.length ∧ ∀ r, afterComment? (l ++ '\n' :: r) = some (l' ++ '\n' :: r) := by
  by_cases hsign : ∃ m, l = '#' :: m
  · obtain ⟨m, rfl⟩ := hsign
    have hcomment : ∀ r, afterComment? ('#' :: m ++ '\n' :: r) =
        commentEnd? (m.dropWhile isLineChar ++ '\n' :: r) := by
      intro r
      rw [← dropWhile_followed (fun _ hc => hc) (lineEnd_cons rfl r) m]
      rfl
    have hle := (List.dropWhile_sublist (l := m) isLineChar).length_le
    rcases commentEnd?_break (m.dropWhile isLineChar) with hend | hend
    · exact .inl fun r => (hcomment r).trans (hend r)
    · exact .inr ⟨_, Nat.lt_succ_of_le hle, fun r => (hcomment r).trans (hend r)⟩
  · refine .inl fun r => ?_
    unfold afterComment?
    split
    next s hs =>
      cases l with
      | nil => cases hs
      | cons c m =>
        rw [List.cons_append] at hs
        rw [(List.cons.inj hs).1] at hsign
        exact absurd ⟨m, rfl⟩ hsign
    next => rfl

/-- Blanks end inside a line or reach to its end. -/
theorem skipBlanks_break (l : List Char) :
    (∀ r, skipBlanks (l ++ '\n' :: r) = skipBlanks r) ∨
      ∃ l', ∀ r, skipBlanks (l ++ '\n' :: r) = l' ++ '\n' :: r := by
  induction hn : l.length using Nat.strongRecOn generalizing l with
  | _ n ih =>
    have hle := (List.dropWhile_sublist (l := l) isBlank).length_le
    cases hrest : l.dropWhile isBlank with
    | nil =>
      refine .inl fun r => ?_
      have hskip : (l ++ '\n' :: r).dropWhile isBlank = r.dropWhile isBlank := by
        rw [List.dropWhile_append, hrest]
        rfl
      rw [skipBlanks_eq, skipBlanks_eq r, hskip]
    | cons c m =>
      have hskip : ∀ r, (l ++ '\n' :: r).dropWhile isBlank = c :: m ++ '\n' :: r := by
        intro r
        rw [List.dropWhile_append, hrest]
        rfl
      rcases afterComment?_break (c :: m) with hnone | ⟨l', hlt, hsome⟩
      · refine .inr ⟨c :: m, fun r => ?_⟩
        rw [skipBlanks_eq, hskip, hnone]
        rfl
      · have hcomment : ∀ r, skipBlanks (l ++ '\n' :: r) = skipBlanks (l' ++ '\n' :: r) := by
          intro r
          rw [skipBlanks_eq, hskip, hsome]
          rfl
        rw [hrest] at hle
        rcases ih l'.length (by omega) l' rfl with hend | ⟨l'', hend⟩
        · exact .inl fun r => (hcomment r).trans (hend r)
        · exact .inr ⟨l'', fun r => (hcomment r).trans (hend r)⟩

/-- A line ends with its break, in front of a brace, or where a comment ends. -/
theorem readBreak_break (l : List Char) :
    (∀ r, ∃ e, readBreak (l ++ '\n' :: r) = .error e) ∨
      (∀ r, readBreak (l ++ '\n' :: r) = .ok ((), r)) ∨
      ∃ l', ∀ r, readBreak (l ++ '\n' :: r) = .ok ((), l' ++ '\n' :: r) := by
  cases l with
  | nil => exact .inr (.inl fun r => rfl)
  | cons c m =>
    by_cases hlf : c = '\n'
    · exact .inr (.inr ⟨m, fun r => by rw [hlf]; rfl⟩)
    by_cases hclose : c = '\x7d'
    · exact .inr (.inr ⟨c :: m, fun r => by rw [hclose]; rfl⟩)
    by_cases hcrlf : c = '\r' ∧ ∀ d ∈ m.head?, d = '\n'
    · obtain ⟨rfl, hm⟩ := hcrlf
      cases m with
      | nil => exact .inr (.inl fun r => rfl)
      | cons d m => exact .inr (.inr ⟨m, fun r => by rw [hm d rfl]; rfl⟩)
    -- only a comment is left to end the line
    have hother : ∀ r, readBreak (c :: m ++ '\n' :: r) =
        ((afterComment? (c :: m ++ '\n' :: r)).map fun u => .ok ((), u)).getD
          (.error ⟨c :: m ++ '\n' :: r, [.endOfLine]⟩) := by
      intro r
      rw [List.cons_append]
      unfold readBreak
      split
      next h => cases h
      next t h => exact absurd (List.cons.inj h).1 hlf
      next t h =>
        obtain ⟨hc, hm⟩ := List.cons.inj h
        refine absurd ⟨hc, ?_⟩ hcrlf
        intro d hd
        obtain ⟨m, rfl⟩ := List.head?_eq_some_iff.mp hd
        exact (List.cons.inj hm).1
      next t h => exact absurd (List.cons.inj h).1 hclose
      next =>
        cases afterComment? (c :: (m ++ '\n' :: r)) with
        | none => rfl
        | some u => rfl
    rcases afterComment?_break (c :: m) with hnone | ⟨l', -, hsome⟩
    · refine .inl fun r => ⟨⟨c :: m ++ '\n' :: r, [.endOfLine]⟩, ?_⟩
      rw [hother, hnone]
      rfl
    · refine .inr (.inr ⟨l', fun r => ?_⟩)
      rw [hother, hsome]
      rfl

end Breaks

section Insertion

/-- Spacing, and then nothing or a comment. -/
def isBlankLine (line : List Char) : Bool :=
  line.all isLineChar && (skipSpaces line).head?.all (· == '#')

theorem skipBlanks_blankLine {line : List Char} (h : isBlankLine line = true) (r : List Char) :
    skipBlanks (line ++ '\n' :: r) = skipBlanks r := by
  induction line with
  | nil => exact skipBlanks_cons rfl r
  | cons c line ih =>
    simp only [isBlankLine, List.all_cons, Bool.and_eq_true] at h
    obtain ⟨⟨hc, hline⟩, hcomment⟩ := h
    cases hspace : isSpace c with
    | true =>
      rw [skipSpaces_cons hspace] at hcomment
      rw [List.cons_append, skipBlanks_cons (isBlank_of_isSpace hspace)]
      exact ih (by rw [isBlankLine, hline, hcomment]; rfl)
    | false =>
      rw [skipSpaces_of_head (by simpa using hspace)] at hcomment
      have hsign : c = '#' := by simpa using hcomment
      have hend : (line ++ '\n' :: r).dropWhile isLineChar = '\n' :: r :=
        (span_append (List.all_eq_true.mp hline) (lineEnd_cons rfl r)).2
      have hcomment : afterComment? (('#' :: line ++ '\n' :: r).dropWhile isBlank) =
          some ('\n' :: r) := by
        show commentEnd? ((line ++ '\n' :: r).dropWhile isLineChar) = _
        rw [hend]
        rfl
      rw [hsign, skipBlanks_eq, hcomment]
      exact skipBlanks_cons rfl r

variable {line q : List Char}

/-- Places in a text and in the text with a line put in front of its end `q`: on the same line above
that line, or at the same place below it. -/
def Shifted (line q s t : List Char) : Prop :=
  (∃ l, s = l ++ '\n' :: q ∧ t = l ++ '\n' :: (line ++ '\n' :: q)) ∨ s = t ∧ s <:+ q

/-- These places, and the one where the line is put. -/
def ShiftedAt (line q s t : List Char) : Prop :=
  Shifted line q s t ∨ s = q ∧ t = line ++ '\n' :: q

/-- The number of a line after one has been put below the first `k` lines. -/
def movedBelow (k i : Nat) : Nat :=
  if k < i then i + 1 else i

theorem shifted_head {s t : List Char} (h : Shifted line q s t) : s.head? = t.head? := by
  rcases h with ⟨l, rfl, rfl⟩ | ⟨rfl, -⟩
  · cases l with
    | nil => rfl
    | cons c l => rfl
  · rfl

theorem shifted_blanks (hline : isBlankLine line = true) {s t : List Char}
    (h : ShiftedAt line q s t) : Shifted line q (skipBlanks s) (skipBlanks t) := by
  have hhere : Shifted line q (skipBlanks q) (skipBlanks (line ++ '\n' :: q)) :=
    .inr ⟨(skipBlanks_blankLine hline q).symm, skipBlanks_suffix q⟩
  rcases h with (⟨l, rfl, rfl⟩ | ⟨rfl, hq⟩) | ⟨rfl, rfl⟩
  · rcases skipBlanks_break l with hend | ⟨l', hend⟩
    · rw [hend, hend]
      exact hhere
    · exact .inl ⟨l', hend _, hend _⟩
  · exact .inr ⟨rfl, (skipBlanks_suffix s).trans hq⟩
  · exact hhere

theorem shifted_inline {α : Type} {read : Reader α} (hstays : StaysOnLine read)
    (hleaves : LeavesEnd read) {s t : List Char} (h : Shifted line q s t) :
    SameReading id (Shifted line q) (read s) (read t) := by
  rcases h with ⟨l, rfl, rfl⟩ | ⟨rfl, hq⟩
  · rw [hstays l _ (lineEnd_cons rfl q), hstays l _ (lineEnd_cons rfl _)]
    cases read l with
    | error e => exact .error _ _
    | ok x => exact .ok x.1 (.inl ⟨x.2, rfl, rfl⟩)
  · cases hread : read s with
    | error e => exact .error e e
    | ok x => exact .ok x.1 (.inr ⟨rfl, (hleaves s x hread).trans hq⟩)

theorem shifted_ended {s t : List Char} (h : Shifted line q s t) :
    SameReading id (ShiftedAt line q) (readEnd s) (readEnd t) := by
  rcases h with ⟨l, rfl, rfl⟩ | ⟨rfl, hq⟩
  · unfold readEnd
    rw [skipSpaces_followed (lineEnd_cons rfl q), skipSpaces_followed (lineEnd_cons rfl _)]
    rcases readBreak_break (skipSpaces l) with hfail | hend | ⟨l', hend⟩
    · obtain ⟨e, he⟩ := hfail q
      obtain ⟨e', he'⟩ := hfail (line ++ '\n' :: q)
      rw [he, he']
      exact .error e e'
    · rw [hend, hend]
      exact .ok () (.inr ⟨rfl, rfl⟩)
    · rw [hend, hend]
      exact .ok () (.inl (.inl ⟨l', rfl, rfl⟩))
  · cases hread : readEnd s with
    | error e => exact .error e e
    | ok x => exact .ok () (.inl (.inr ⟨rfl, (readEnd_leaves s x hread).trans hq⟩))

theorem shifted_tail {c : Char} (hc : isLineChar c = true) {s t : List Char}
    (h : Shifted line q (c :: s) (c :: t)) : Shifted line q s t := by
  rcases h with ⟨l, hs, ht⟩ | ⟨hst, hq⟩
  · cases l with
    | nil =>
      rw [(List.cons.inj hs).1] at hc
      cases hc
    | cons d l => exact .inl ⟨l, (List.cons.inj hs).2, (List.cons.inj ht).2⟩
  · exact .inr ⟨(List.cons.inj hst).2, (List.suffix_cons c s).trans hq⟩

theorem count_blankLine (h : isBlankLine line = true) : line.count '\n' = 0 := by
  simp only [isBlankLine, Bool.and_eq_true] at h
  apply List.count_eq_zero_of_not_mem
  intro hbreak
  cases List.all_eq_true.mp h.1 '\n' hbreak

theorem shifted_line (hline : isBlankLine line = true) {n k : Nat}
    (hn : n = k + q.count '\n' + 1) {s t : List Char} (h : Shifted line q s t) :
    lineOf (n + 1) t = movedBelow k (lineOf n s) := by
  rcases h with ⟨l, rfl, rfl⟩ | ⟨rfl, hq⟩
  · have hs : lineOf n (l ++ '\n' :: q) = k - l.count '\n' := by
      rw [lineOf, List.count_append, List.count_cons_self]
      omega
    have ht : lineOf (n + 1) (l ++ '\n' :: (line ++ '\n' :: q)) = k - l.count '\n' := by
      rw [lineOf, List.count_append, List.count_cons_self, List.count_append, List.count_cons_self,
        count_blankLine hline]
      omega
    have hle : ¬ k < k - l.count '\n' := by omega
    rw [hs, ht, movedBelow, if_neg hle]
  · have hle : s.count '\n' ≤ q.count '\n' := hq.sublist.count_le '\n'
    have hlt : k < n - s.count '\n' := by omega
    rw [lineOf, lineOf, movedBelow, if_pos hlt]
    omega

theorem shifted_correspondence (hline : isBlankLine line = true) {n k : Nat}
    (hn : n = k + q.count '\n' + 1) :
    Correspondence n (n + 1) (movedBelow k) (Shifted line q) (ShiftedAt line q) where
  at_of_on := .inl
  blanks h := ⟨shifted_blanks hline h, shifted_head (shifted_blanks hline h)⟩
  inline hstays hleaves h := shifted_inline hstays hleaves h
  ended := shifted_ended
  tail hc h := shifted_tail hc h
  line := shifted_line hline hn

end Insertion

section Layout

/-- A blank or comment line in front of a line changes nothing but the numbers of the lines below. -/
theorem parse_insert_line (p q line : String)
    (hp : p.toList = [] ∨ ∃ l, p.toList = l ++ ['\n']) (hline : isBlankLine line.toList = true) :
    (RuleFile.parse (p ++ line ++ "\n" ++ q)).toOption =
      (RuleFile.parse (p ++ q)).toOption.map
        (RuleFile.mapLines (movedBelow (p.toList.count '\n'))) := by
  have htext : (p ++ line ++ "\n" ++ q).toList = p.toList ++ (line.toList ++ '\n' :: q.toList) := by
    simp
  have hcount : (p ++ line ++ "\n" ++ q).toList.count '\n' =
      p.toList.count '\n' + q.toList.count '\n' + 1 := by
    rw [htext, List.count_append, List.count_append, count_blankLine hline, List.count_cons_self]
    omega
  have hat : ShiftedAt line.toList q.toList (p.toList ++ q.toList)
      (p.toList ++ (line.toList ++ '\n' :: q.toList)) := by
    rcases hp with hp | ⟨l, hp⟩
    · rw [hp]
      exact .inr ⟨rfl, rfl⟩
    · rw [hp, List.append_assoc, List.append_assoc]
      exact .inl (.inl ⟨l, rfl, rfl⟩)
  rw [toOption_parse, toOption_parse, hcount, htext, String.toList_append, List.count_append]
  exact (shifted_correspondence hline rfl).readParts_same hat

/-- A comment between two rules of a block: the second one moves down. -/
theorem parse_insert_line_in_block :
    isBlankLine " \t# c -> d".toList = true ∧
      (RuleFile.parse
        ("@simple \x7b\n a -> b\n" ++ " \t# c -> d" ++ "\n" ++ " e -> f\n\x7d")).toOption =
      (RuleFile.parse ("@simple \x7b\n a -> b\n" ++ " e -> f\n\x7d")).toOption.map
        (RuleFile.mapLines (movedBelow 2)) :=
  ⟨by decide, parse_insert_line "@simple \x7b\n a -> b\n" " e -> f\n\x7d" " \t# c -> d"
    (.inr ⟨"@simple \x7b\n a -> b".toList, rfl⟩) (by decide)⟩

end Layout

end Metamorphosis
