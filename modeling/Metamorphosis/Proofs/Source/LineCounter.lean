import Metamorphosis.Source.LineCounter

namespace Metamorphosis

section Bytes

theorem utf8_append (s t : List Char) : utf8 (s ++ t) = utf8 s ++ utf8 t :=
  List.flatMap_append

theorem ofNat_ne_breakByte {m : Nat} (hlow : 128 ≤ m) (hhigh : m < 256) :
    UInt8.ofNat m ≠ breakByte := by
  intro h
  have hnat : m % 256 = 10 := congrArg UInt8.toNat h
  omega

/-- No byte of a longer encoding is one of the first 128. -/
theorem count_utf8EncodeChar (c : Char) :
    (String.utf8EncodeChar c).count breakByte = if c = '\n' then 1 else 0 := by
  by_cases hsmall : c.val.toNat ≤ 127
  · have hiff : UInt8.ofNat c.val.toNat = breakByte ↔ c = '\n' := by
      constructor
      · intro h
        have hnat : c.val.toNat % 256 = 10 := congrArg UInt8.toNat h
        have hval : c.val.toNat = 10 := by omega
        exact Char.ext (UInt32.toNat_inj.mp hval)
      · rintro rfl
        rfl
    have hone : String.utf8EncodeChar c = [UInt8.ofNat c.val.toNat] := if_pos hsmall
    rw [hone, List.count_singleton]
    simp only [beq_iff_eq, hiff]
  · have hne : c ≠ '\n' := by
      rintro rfl
      exact hsmall (by decide)
    rw [if_neg hne]
    apply List.count_eq_zero_of_not_mem
    unfold String.utf8EncodeChar
    dsimp only
    rw [if_neg hsmall]
    split
    next =>
      simp only [List.mem_cons, List.not_mem_nil, or_false]
      rintro (h | h) <;> exact ofNat_ne_breakByte (by omega) (by omega) h.symm
    next =>
      split
      next =>
        simp only [List.mem_cons, List.not_mem_nil, or_false]
        rintro (h | h | h) <;> exact ofNat_ne_breakByte (by omega) (by omega) h.symm
      next =>
        simp only [List.mem_cons, List.not_mem_nil, or_false]
        rintro (h | h | h | h) <;> exact ofNat_ne_breakByte (by omega) (by omega) h.symm

theorem count_utf8 (s : List Char) : (utf8 s).count breakByte = s.count '\n' := by
  induction s with
  | nil => rfl
  | cons c s ih =>
    show (String.utf8EncodeChar c ++ utf8 s).count breakByte = _
    rw [List.count_append, count_utf8EncodeChar, ih, List.count_cons, Nat.add_comm]
    simp only [beq_iff_eq]

end Bytes

section Counter

variable {text rest : List Char} {c : LineCounter}

/-- The number of bytes before a place that end a line. -/
def breaksBefore (text rest : List Char) : Nat :=
  (utf8 (text.take (text.length - rest.length))).count breakByte

theorem breaksBefore_append (before rest : List Char) :
    breaksBefore (before ++ rest) rest = (utf8 before).count breakByte := by
  unfold breaksBefore
  rw [List.length_append, Nat.add_sub_cancel, List.take_left]

/-- The line of a place that was looked up counts the breaks before it. -/
structure LineCounter.Counts (c : LineCounter) (text : List Char) : Prop where
  bytes : c.bytes = utf8 text
  line : c.line = 1 + (c.bytes.take c.offset).count breakByte

theorem LineCounter.counts_ofText (text : List Char) : (ofText text).Counts text :=
  ⟨rfl, rfl⟩

theorem LineCounter.start_counts (h : c.Counts text) (offset : Nat) :
    (c.start offset).1 ≤ offset ∧
      (c.start offset).2 = 1 + (c.bytes.take (c.start offset).1).count breakByte := by
  unfold start
  split
  next => exact ⟨Nat.zero_le offset, rfl⟩
  next hle => exact ⟨Nat.not_lt.mp hle, h.line⟩

/-- Counting on from a place before gives what counting from the start gives. -/
theorem LineCounter.lookUp_counts (h : c.Counts text) (rest : List Char) :
    (c.lookUp rest).Counts text := by
  refine ⟨h.bytes, ?_⟩
  show (c.start (c.lookUp rest).offset).2 +
      ((c.bytes.take (c.lookUp rest).offset).drop
        (c.start (c.lookUp rest).offset).1).count breakByte =
    1 + (c.bytes.take (c.lookUp rest).offset).count breakByte
  generalize (c.lookUp rest).offset = offset
  obtain ⟨hle, hline⟩ := start_counts h offset
  have hsplit := List.take_append_drop (c.start offset).1 (c.bytes.take offset)
  rw [List.take_take, Nat.min_eq_left hle] at hsplit
  rw [hline, Nat.add_assoc, ← List.count_append, hsplit]

theorem LineCounter.line_lookUp (h : c.Counts text) (hrest : rest <:+ text) :
    (c.lookUp rest).line = 1 + breaksBefore text rest := by
  obtain ⟨before, rfl⟩ := hrest
  have hbytes : (c.lookUp rest).bytes.take (c.lookUp rest).offset = utf8 before := by
    show c.bytes.take (c.bytes.length - (utf8 rest).length) = utf8 before
    rw [h.bytes, utf8_append, List.length_append, Nat.add_sub_cancel, List.take_left]
  rw [(lookUp_counts h rest).line, hbytes, breaksBefore_append]

theorem LineCounter.linesOf_eq (h : c.Counts text) {looked : List (List Char)}
    (hlooked : ∀ rest ∈ looked, rest <:+ text) :
    c.linesOf looked = looked.map fun rest => 1 + breaksBefore text rest := by
  induction looked generalizing c with
  | nil => rfl
  | cons rest more ih =>
    obtain ⟨hrest, hmore⟩ := List.forall_mem_cons.mp hlooked
    rw [linesOf, line_lookUp h hrest, ih (lookUp_counts h rest) hmore, List.map_cons]

end Counter

end Metamorphosis
