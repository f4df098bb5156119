import Metamorphosis.Proofs.Allocator
import Metamorphosis.Proofs.Session

namespace Metamorphosis

theorem Glyph.isUsable_iff {g : Glyph} :
    g.isUsable = true ↔ g.utf8ByteSize ≤ maxBytes ∧ g ≠ deletion := by
  simp [isUsable]

theorem utf8ByteSize_ofList_le (cs : List Char) :
    (String.ofList cs).utf8ByteSize ≤ 4 * cs.length := by
  induction cs with
  | nil => simp
  | cons c cs ih =>
    have hc := c.utf8Size_le_four
    rw [String.ofList_cons, String.utf8ByteSize_append, String.utf8ByteSize_singleton,
      List.length_cons]
    omega

namespace Arena

variable {a b c : Arena} {key : TempKey}

/-- The names of the temporary glyphs handed out. -/
def names (a : Arena) : List Glyph :=
  a.keys.filterMap fun key => (a.code? key).map toString

/-- Every key that has a code keeps it. -/
def Extends (a b : Arena) : Prop :=
  ∀ key code, a.code? key = some code → b.code? key = some code

theorem Extends.refl (a : Arena) : a.Extends a :=
  fun _ _ h => h

theorem Extends.trans (hab : a.Extends b) (hbc : b.Extends c) : a.Extends c :=
  fun key code h => hbc key code (hab key code h)

theorem code?_injective {key' : TempKey} {code : Nat} (h : a.code? key = some code)
    (h' : a.code? key' = some code) : key = key' := by
  obtain ⟨i, hi, hc⟩ := code?_eq_some.mp h
  obtain ⟨j, hj, hc'⟩ := code?_eq_some.mp h'
  have hij : i = j := by omega
  subst hij
  exact Option.some.inj (hi.symm.trans hj)

theorem mem_names {code : Nat} (h : a.code? key = some code) : toString code ∈ a.names := by
  obtain ⟨i, hi, _⟩ := code?_eq_some.mp h
  exact List.mem_filterMap.mpr ⟨key, List.mem_of_getElem? hi, by rw [h]; rfl⟩

theorem exists_code_of_mem_names {g : Glyph} (h : g ∈ a.names) :
    ∃ key code, a.code? key = some code ∧ g = toString code := by
  obtain ⟨key, _, h⟩ := List.mem_filterMap.mp h
  obtain ⟨code, hcode, rfl⟩ := Option.map_eq_some_iff.mp h
  exact ⟨key, code, hcode, rfl⟩

theorem Extends.names_subset (h : a.Extends b) : a.names ⊆ b.names := by
  intro g hg
  obtain ⟨key, code, hcode, rfl⟩ := exists_code_of_mem_names hg
  exact mem_names (h key code hcode)

/-- The codes that an arena can still hand out. -/
def codesLeft (a : Arena) : Nat :=
  maxCode + 1 - a.nextCode

theorem code?_lt_nextCode {code : Nat} (h : a.code? key = some code) : code < a.nextCode := by
  obtain ⟨i, hi, rfl⟩ := code?_eq_some.mp h
  rw [nextCode_eq]
  exact Nat.add_lt_add_left (List.getElem?_eq_some_iff.mp hi).1 _

/-- Keys behind those of an arena have the codes that come next. -/
theorem code?_of_keys_eq {new : List TempKey} (hbase : b.base = a.base)
    (hkeys : b.keys = a.keys ++ new) {k : Nat} (hk : new[k]? = some key) :
    b.code? key = some (a.nextCode + k) := by
  refine code?_eq_some.mpr ⟨a.keys.length + k, ?_, ?_⟩
  · rw [hkeys, List.getElem?_append_right (Nat.le_add_right _ _), Nat.add_sub_cancel_left, hk]
  · rw [nextCode_eq, hbase, Nat.add_assoc]

/-- Keys that come behind others leave them their codes. -/
theorem extends_of_keys_eq {new : List TempKey} (hbase : b.base = a.base)
    (hkeys : b.keys = a.keys ++ new) : a.Extends b := by
  intro key code h
  obtain ⟨i, hi, rfl⟩ := code?_eq_some.mp h
  refine code?_eq_some.mpr ⟨i, ?_, by rw [hbase]⟩
  rw [hkeys, List.getElem?_append_left (List.getElem?_eq_some_iff.mp hi).1, hi]

/-- Every code in use is a glyph code. -/
theorem code?_le {code : Nat} (h : a.code? key = some code) : code ≤ maxCode := by
  have hlt := code?_lt_nextCode h
  have hbound := a.codes_le
  omega

/-- Glyph codes have five digits at most. -/
theorem name_usable {code : Nat} (h : code ≤ maxCode) : Glyph.isUsable (toString code) = true := by
  rw [Glyph.isUsable_iff, Nat.toString_eq_ofList_toDigits]
  constructor
  · have hdigits : (Nat.toDigits 10 code).length ≤ 5 :=
      (Nat.length_toDigits_le_iff (by decide) (by decide)).mpr (Nat.lt_of_le_of_lt h (by decide))
    have hsize := utf8ByteSize_ofList_le (Nat.toDigits 10 code)
    unfold Glyph.maxBytes
    omega
  · intro he
    have hd : 'D' ∈ Nat.toDigits 10 code := by
      rw [← String.toList_ofList (l := Nat.toDigits 10 code), he]
      decide
    cases Nat.isDigit_of_mem_toDigits (by decide) (by decide) hd

/-- A request gives a key its code for good. -/
theorem request_ok {code : Nat} (h : a.request key = .ok (code, b)) :
    b.code? key = some code ∧ a.Extends b := by
  rcases a.request_cases key with
    ⟨_, hcode, he⟩ | ⟨_, _, after, he, hbase, hkeys⟩ | ⟨_, _, he⟩
  · cases he.symm.trans h
    exact ⟨hcode, .refl _⟩
  · cases he.symm.trans h
    have hcode := code?_of_keys_eq hbase hkeys (List.getElem?_cons_zero (a := key))
    exact ⟨hcode, extends_of_keys_eq hbase hkeys⟩
  · cases he.symm.trans h

end Arena

namespace CompileM

theorem exec_temporary_ok {key : TempKey} {temp : Glyph} {s s' : Session}
    (h : exec (temporary key) s = (.ok temp, s')) :
    ∃ code, s'.arena.code? key = some code ∧ temp = toString code ∧ s.arena.Extends s'.arena := by
  rw [exec_temporary] at h
  split at h
  next code after hr =>
    obtain ⟨ht, rfl⟩ := Prod.mk.inj h
    obtain ⟨hc, he⟩ := Arena.request_ok hr
    exact ⟨code, hc, (Except.ok.inj ht).symm, he⟩
  next => cases h

/-- A request for a key that has a code is answered with it and changes nothing. One for a new key is
answered with the next code, and the key is kept behind the others; if no code is left, the request
fails and changes nothing. -/
theorem exec_temporary_cases (key : TempKey) (s : Session) :
    (∃ code, s.arena.code? key = some code ∧
      exec (temporary key) s = (.ok (toString code), s)) ∨
    (s.arena.code? key = none ∧ s.arena.nextCode ≤ Arena.maxCode ∧
      ∃ s', exec (temporary key) s = (.ok (toString s.arena.nextCode), s') ∧
        s'.arena.base = s.arena.base ∧ s'.arena.keys = s.arena.keys ++ [key]) ∨
    (s.arena.code? key = none ∧ s.arena.nextCode = Arena.maxCode + 1 ∧
      exec (temporary key) s =
        (.error (.failed (.temporariesExhausted s.arena.size s.arena.base)), s)) := by
  rw [exec_temporary]
  rcases s.arena.request_cases key with
    ⟨code, hcode, he⟩ | ⟨hnew, hfree, after, he, hbase, hkeys⟩ | ⟨hnew, hfull, he⟩
  · refine Or.inl ⟨code, hcode, ?_⟩
    rw [he, hcode]
    rfl
  · rw [he]
    exact Or.inr (Or.inl ⟨Arena.code?_eq_none.mpr hnew, hfree, _, rfl, hbase, hkeys⟩)
  · refine Or.inr (Or.inr ⟨Arena.code?_eq_none.mpr hnew, hfull, ?_⟩)
    rw [he]

/-- The first temporary glyph of a session is named by the first code. -/
theorem exec_temporary_fresh (base : UInt16) (key : TempKey) :
    ∃ s, exec (temporary key) (Session.fresh base) = (.ok (toString base.toNat), s) := by
  have hnext : (Session.fresh base).arena.nextCode = base.toNat := UInt16.toNat_toUInt32 base
  rcases exec_temporary_cases key (Session.fresh base) with
    ⟨_, hcode, _⟩ | ⟨_, _, s, he, _⟩ | ⟨_, hfull, _⟩
  · cases hcode
  · rw [hnext] at he
    exact ⟨s, he⟩
  · have hlt : base.toNat < Arena.maxCode + 1 := base.toNat_lt
    omega

/-- A request for a new key takes the next code. -/
theorem exec_temporary_new {key : TempKey} {temp : Glyph} {s s' : Session}
    (hnew : s.arena.code? key = none) (h : exec (temporary key) s = (.ok temp, s')) :
    temp = toString s.arena.nextCode ∧ s'.arena.base = s.arena.base ∧
      s'.arena.keys = s.arena.keys ++ [key] := by
  rcases exec_temporary_cases key s with ⟨_, hcode, _⟩ | ⟨_, _, _, he, hbase, hkeys⟩ | ⟨_, _, he⟩
  · rw [hnew] at hcode
    cases hcode
  · rw [he] at h
    cases h
    exact ⟨rfl, hbase, hkeys⟩
  · rw [he] at h
    cases h

/-- A request fails only when all codes are used up, and leaves the session as it was. -/
theorem exec_temporary_error {key : TempKey} {e : CompileError} {s s' : Session}
    (h : exec (temporary key) s = (.error e, s')) :
    e = .failed (.temporariesExhausted s'.arena.size s'.arena.base) ∧
      s'.arena.nextCode = Arena.maxCode + 1 ∧ s' = s := by
  rcases exec_temporary_cases key s with ⟨_, _, he⟩ | ⟨_, _, _, he, _⟩ | ⟨_, hfull, he⟩
  · rw [he] at h
    cases h
  · rw [he] at h
    cases h
  · rw [he] at h
    cases h
    exact ⟨rfl, hfull, rfl⟩

/-- New keys that are asked for one after the other take the next codes in turn. If there are too few
codes left, one of the requests fails. -/
theorem exec_mapM_temporary {α β : Type} (key : α → TempKey) (make : α → Glyph → β) {xs : List α}
    {s : Session} (hnew : ∀ x ∈ xs, key x ∉ s.arena.keys) (hnodup : (xs.map key).Nodup) :
    (s.arena.nextCode + xs.length ≤ Arena.maxCode + 1 ∧
      ∃ s', exec (xs.mapM fun x => do return make x (← temporary (key x))) s =
          (.ok (List.zipWith make xs ((List.range' s.arena.nextCode xs.length).map toString)), s') ∧
        s'.arena.base = s.arena.base ∧ s'.arena.keys = s.arena.keys ++ xs.map key) ∨
    (Arena.maxCode + 1 < s.arena.nextCode + xs.length ∧
      ∃ e s', exec (xs.mapM fun x => do return make x (← temporary (key x))) s = (.error e, s')) := by
  induction xs generalizing s with
  | nil =>
    exact Or.inl ⟨s.arena.codes_le, s, rfl, rfl, by simp⟩
  | cons x xs ih =>
    obtain ⟨hx, hrest⟩ := List.nodup_cons.mp hnodup
    rw [List.mapM_cons, List.length_cons]
    rcases exec_temporary_cases (key x) s with
      ⟨code, hcode, _⟩ | ⟨_, hfree, m, he, hbase, hkeys⟩ | ⟨_, hfull, he⟩
    · rw [Arena.code?_eq_none.mpr (hnew x List.mem_cons_self)] at hcode
      cases hcode
    · have hnext : m.arena.nextCode = s.arena.nextCode + 1 := by
        rw [Arena.nextCode_eq, Arena.nextCode_eq, hbase, hkeys, List.length_append,
          List.length_singleton, Nat.add_assoc]
      have hlater : ∀ y ∈ xs, key y ∉ m.arena.keys := by
        intro y hy hmem
        rw [hkeys, List.mem_append, List.mem_singleton] at hmem
        rcases hmem with hmem | hsame
        · exact hnew y (List.mem_cons_of_mem x hy) hmem
        · exact hx (hsame ▸ List.mem_map_of_mem hy)
      have hfirst : exec (do return make x (← temporary (key x))) s =
          (.ok (make x (toString s.arena.nextCode)), m) := by
        rw [exec_bind_of_ok he]
        rfl
      rw [exec_bind_of_ok hfirst]
      rcases ih hlater hrest with ⟨hleft, s', hs', hbase', hkeys'⟩ | ⟨hfew, e, s', hs'⟩
      · refine Or.inl ⟨by omega, s', ?_, hbase'.trans hbase, ?_⟩
        · rw [exec_bind_of_ok hs', hnext, List.range'_succ]
          rfl
        · rw [hkeys', hkeys, List.map_cons, List.append_assoc, List.singleton_append]
      · exact Or.inr ⟨by omega, e, s', exec_bind_of_error hs' _⟩
    · exact Or.inr ⟨by omega, _, s, exec_bind_of_error (exec_bind_of_error he _) _⟩

end CompileM

end Metamorphosis
