import Metamorphosis.Arena
import Metamorphosis.Proofs.Ordered

namespace Metamorphosis

namespace Allocator

variable {a : Allocator} {keys : List TempKey} {key : TempKey} {code : UInt16} {i : Nat}

theorem glyphCode?_eq_some {n : UInt32} (h : n.toNat ≤ Arena.maxCode) :
    ∃ code, glyphCode? n = some code ∧ code.toNat = n.toNat := by
  refine ⟨n.toUInt16, if_pos h, ?_⟩
  rw [UInt32.toNat_toUInt16]
  exact Nat.mod_eq_of_lt (Nat.lt_succ_of_le h)

theorem glyphCode?_eq_none {n : UInt32} (h : Arena.maxCode < n.toNat) : glyphCode? n = none :=
  if_neg (Nat.not_le.mpr h)

/-- An allocator that has served keys in this order. It remembers each of them with the code of its
place, codes from the base on, and the counter holds the one behind them. -/
structure Serves (a : Allocator) (keys : List TempKey) : Prop where
  nodup : keys.Nodup
  room : a.base.toNat + keys.length ≤ Arena.maxCode + 1
  keys_eq : a.assigned.map Prod.fst = keys
  codes_eq : a.assigned.map (UInt16.toNat ∘ Prod.snd) = List.range' a.base.toNat keys.length
  next_eq : a.next.toNat = a.base.toNat + keys.length

theorem serves_fresh (base : UInt16) : ({ base } : Allocator).Serves [] where
  nodup := List.nodup_nil
  room := Nat.le_of_lt base.toNat_lt
  keys_eq := rfl
  codes_eq := rfl
  next_eq := UInt16.toNat_toUInt32 base

theorem Serves.length_assigned (h : a.Serves keys) : a.assigned.length = keys.length := by
  rw [← h.keys_eq, List.length_map]

/-- The entry at a place holds the key served there and the code of the place. -/
theorem Serves.getElem?_assigned (h : a.Serves keys) :
    a.assigned[i]? = some (key, code) ↔
      keys[i]? = some key ∧ code.toNat = a.base.toNat + i := by
  have hkey : keys[i]? = a.assigned[i]?.map Prod.fst := by rw [← h.keys_eq, List.getElem?_map]
  have hcode := congrArg (·[i]?) h.codes_eq
  simp only [List.getElem?_map] at hcode
  rw [hkey]
  cases he : a.assigned[i]? with
  | none => simp
  | some entry =>
    have hi : i < keys.length := h.length_assigned ▸ (List.getElem?_eq_some_iff.mp he).1
    rw [he, List.getElem?_range' hi, Nat.one_mul, Option.map_some, Option.some.injEq] at hcode
    obtain ⟨key', code'⟩ := entry
    have hcode' : code'.toNat = a.base.toNat + i := hcode
    simp only [Option.some.injEq, Option.map_some, Prod.mk.injEq, ← hcode', UInt16.toNat_inj]
    exact and_congr_right fun _ => eq_comm

theorem Serves.lookup_eq_some (h : a.Serves keys) :
    a.assigned.lookup key = some code ↔
      ∃ i, keys[i]? = some key ∧ code.toNat = a.base.toNat + i := by
  constructor
  · intro hl
    obtain ⟨i, hi⟩ := List.mem_iff_getElem?.mp (mem_of_lookup hl)
    exact ⟨i, h.getElem?_assigned.mp hi⟩
  · rintro ⟨i, hi⟩
    exact lookup_of_mem_nodup (h.keys_eq ▸ h.nodup)
      (List.mem_of_getElem? (h.getElem?_assigned.mpr hi))

theorem Serves.exists_lookup (h : a.Serves keys) (hi : keys[i]? = some key) :
    ∃ code, a.assigned.lookup key = some code ∧ code.toNat = a.base.toNat + i := by
  cases he : a.assigned[i]? with
  | none =>
    rw [← h.keys_eq, List.getElem?_map, he] at hi
    cases hi
  | some entry =>
    obtain ⟨hkey, hcode⟩ := h.getElem?_assigned.mp he
    cases hi.symm.trans hkey
    exact ⟨entry.2, h.lookup_eq_some.mpr ⟨i, hkey, hcode⟩, hcode⟩

theorem Serves.lookup_eq_none (h : a.Serves keys) : a.assigned.lookup key = none ↔ key ∉ keys := by
  rw [← h.keys_eq, ← isSome_lookup, Bool.not_eq_true, Option.isSome_eq_false_iff,
    Option.isNone_iff_eq_none]

/-- A new key is served behind the others. -/
theorem Serves.concat (h : a.Serves keys) (hnew : key ∉ keys)
    (hfree : a.base.toNat + keys.length ≤ Arena.maxCode) (hcode : code.toNat = a.next.toNat) :
    Serves { a with next := a.next + 1, assigned := a.assigned ++ [(key, code)] }
      (keys ++ [key]) where
  nodup := List.nodup_append.mpr ⟨h.nodup, List.nodup_singleton key, by
    rintro k hk k' hk' rfl
    exact hnew (List.mem_singleton.mp hk' ▸ hk)⟩
  room := by
    rw [List.length_append, List.length_singleton]
    exact Nat.succ_le_succ hfree
  keys_eq := by rw [List.map_append, h.keys_eq, List.map_singleton]
  codes_eq := by
    rw [List.map_append, h.codes_eq, List.map_singleton, List.length_append, List.length_singleton,
      List.range'_concat, Nat.one_mul, Function.comp_apply, hcode, h.next_eq]
  next_eq := by
    -- the counter is far from wrapping around
    have hsmall : a.next.toNat + 1 < 2 ^ 32 := by
      rw [h.next_eq]
      exact Nat.lt_of_le_of_lt (Nat.succ_le_succ hfree) (by decide)
    rw [UInt32.toNat_add, UInt32.toNat_one, Nat.mod_eq_of_lt hsmall, h.next_eq, List.length_append,
      List.length_singleton, Nat.add_assoc]

/-- What a request can do. A key that was served is answered with its code, and nothing changes. A new
one is answered with the code behind the others and is remembered; if there is no such code, the
request fails and nothing changes. -/
theorem Serves.allocate_cases (h : a.Serves keys) (key : TempKey) :
    (∃ i code, keys[i]? = some key ∧ code.toNat = a.base.toNat + i ∧
      a.allocate key = (.ok code, a)) ∨
    (key ∉ keys ∧ a.base.toNat + keys.length ≤ Arena.maxCode ∧
      ∃ code, code.toNat = a.base.toNat + keys.length ∧
        a.allocate key =
          (.ok code, { a with next := a.next + 1, assigned := a.assigned ++ [(key, code)] }) ∧
        Serves { a with next := a.next + 1, assigned := a.assigned ++ [(key, code)] }
          (keys ++ [key])) ∨
    (key ∉ keys ∧ a.base.toNat + keys.length = Arena.maxCode + 1 ∧
      a.allocate key = (.error (.temporariesExhausted keys.length a.base), a)) := by
  unfold allocate
  cases hl : a.assigned.lookup key with
  | some code =>
    obtain ⟨i, hi, hcode⟩ := h.lookup_eq_some.mp hl
    exact Or.inl ⟨i, code, hi, hcode, rfl⟩
  | none =>
    have hnew := h.lookup_eq_none.mp hl
    have hroom := h.room
    by_cases hfree : a.base.toNat + keys.length ≤ Arena.maxCode
    · obtain ⟨code, hcode, hnat⟩ := glyphCode?_eq_some (h.next_eq ▸ hfree)
      refine Or.inr (Or.inl ⟨hnew, hfree, code, hnat.trans h.next_eq, ?_, h.concat hnew hfree hnat⟩)
      rw [hcode]
    · have hnone : glyphCode? a.next = none := glyphCode?_eq_none (by rw [h.next_eq]; omega)
      refine Or.inr (Or.inr ⟨hnew, by omega, ?_⟩)
      rw [hnone, h.length_assigned]

/-- Whatever was requested, the keys remembered have been served in order. -/
theorem Reached.serves (h : a.Reached) : a.Serves (a.assigned.map Prod.fst) := by
  induction h with
  | fresh base => exact serves_fresh base
  | @allocate a key _ ih =>
    rcases ih.allocate_cases key with
      ⟨_, _, _, _, he⟩ | ⟨_, _, code, _, he, hserves⟩ | ⟨_, _, he⟩
    · rwa [he]
    · rw [he]
      rwa [hserves.keys_eq]
    · rwa [he]

end Allocator

namespace Arena

variable {a b : Arena} {key : TempKey}

theorem serves (a : Arena) : a.toAllocator.Serves a.keys :=
  a.reached.serves

theorem eq_of_toAllocator (h : a.toAllocator = b.toAllocator) : a = b := by
  cases a
  cases b
  cases h
  rfl

theorem nextCode_eq (a : Arena) : a.nextCode = a.base.toNat + a.keys.length :=
  a.serves.next_eq

theorem size_eq (a : Arena) : a.size = a.keys.length :=
  a.serves.length_assigned

theorem codes_le (a : Arena) : a.nextCode ≤ maxCode + 1 :=
  a.nextCode_eq ▸ a.serves.room

/-- Each key has the code of its place. -/
theorem code?_eq_some {code : Nat} :
    a.code? key = some code ↔ ∃ i, a.keys[i]? = some key ∧ code = a.base.toNat + i := by
  rw [code?, Option.map_eq_some_iff]
  constructor
  · rintro ⟨code, hl, rfl⟩
    exact a.serves.lookup_eq_some.mp hl
  · rintro ⟨i, hi, rfl⟩
    exact a.serves.exists_lookup hi

theorem code?_eq_none : a.code? key = none ↔ key ∉ a.keys := by
  rw [code?, Option.map_eq_none_iff, a.serves.lookup_eq_none]

/-- A request for a key that has a code is answered with it and changes nothing. One for a new key is
answered with the next code, and the key is kept behind the others; if no code is left, the request
fails. -/
theorem request_cases (a : Arena) (key : TempKey) :
    (∃ code, a.code? key = some code ∧ a.request key = .ok (code, a)) ∨
    (key ∉ a.keys ∧ a.nextCode ≤ maxCode ∧
      ∃ b, a.request key = .ok (a.nextCode, b) ∧ b.base = a.base ∧ b.keys = a.keys ++ [key]) ∨
    (key ∉ a.keys ∧ a.nextCode = maxCode + 1 ∧
      a.request key = .error (.temporariesExhausted a.size a.base)) := by
  unfold request
  rw [nextCode_eq, size_eq]
  rcases a.serves.allocate_cases key with
    ⟨i, code, hi, hcode, he⟩ | ⟨hnew, hfree, code, hcode, he, hserves⟩ | ⟨hnew, hfull, he⟩
  · have hsame : a.afterRequest key = a := eq_of_toAllocator (congrArg Prod.snd he)
    refine Or.inl ⟨code.toNat, code?_eq_some.mpr ⟨i, hi, hcode⟩, ?_⟩
    rw [he, hsame]
  · refine Or.inr (Or.inl ⟨hnew, hfree, a.afterRequest key, ?_, ?_, ?_⟩)
    · rw [he, ← hcode]
    · exact congrArg (Allocator.base ∘ Prod.snd) he
    · rw [← hserves.keys_eq]
      exact congrArg (List.map Prod.fst ∘ Allocator.assigned ∘ Prod.snd) he
  · refine Or.inr (Or.inr ⟨hnew, hfull, ?_⟩)
    rw [he]

end Arena

end Metamorphosis
