import Mathlib.Data.List.Induction
import Metamorphosis.Proofs.Arena

namespace Metamorphosis

open CompileM

theorem eraseDups_concat {α : Type} [DecidableEq α] (xs : List α) (x : α) :
    (xs ++ [x]).eraseDups = if x ∈ xs then xs.eraseDups else xs.eraseDups ++ [x] := by
  rw [List.eraseDups_append]
  split
  next h => simp [List.removeAll, h]
  next h => simp [List.removeAll, h, List.eraseDups_cons]

namespace Allocator

variable {base : UInt16} {requests : List TempKey} {a : Allocator} {key key' : TempKey}
  {code : UInt16}

theorem allocate_of_lookup (h : a.assigned.lookup key = some code) :
    a.allocate key = (.ok code, a) := by
  rw [allocate, h]

/-- A key that has a code keeps it through a request for any key. -/
theorem lookup_allocate (h : a.assigned.lookup key = some code) (key' : TempKey) :
    (a.allocate key').2.assigned.lookup key = some code := by
  unfold allocate
  split
  next => exact h
  next =>
    split
    next => exact h
    next => rw [List.lookup_append, h, Option.some_or]

/-- A key whose request is answered has that code from then on. -/
theorem lookup_of_allocate_ok (h : (a.allocate key).1 = .ok code) :
    (a.allocate key).2.assigned.lookup key = some code := by
  unfold allocate at h ⊢
  split at h
  next found hfound =>
    cases h
    exact hfound
  next hnone =>
    split at h
    next => cases h
    next =>
      cases h
      rw [List.lookup_append, hnone, Option.none_or, List.lookup_cons_self]

/-- A request that fails leaves the allocator as it was. -/
theorem allocate_error {fault : TableFault} (h : (a.allocate key).1 = .error fault) :
    fault = .temporariesExhausted a.assigned.length a.base ∧ (a.allocate key).2 = a := by
  unfold allocate at h ⊢
  split at h
  next => cases h
  next =>
    split at h
    next =>
      cases h
      exact ⟨rfl, rfl⟩
    next => cases h

/-- The allocator after requests made one after the other, whether or not they are answered. -/
def after (base : UInt16) (requests : List TempKey) : Allocator :=
  requests.foldl (fun a key => (a.allocate key).2) { base }

theorem after_concat : after base (requests ++ [key]) = ((after base requests).allocate key).2 := by
  rw [after, List.foldl_concat, ← after]

/-- Later requests take no code away. -/
theorem lookup_after_append (h : (after base requests).assigned.lookup key = some code)
    (later : List TempKey) :
    (after base (requests ++ later)).assigned.lookup key = some code := by
  induction later using List.reverseRecOn with
  | nil => rwa [List.append_nil]
  | append_singleton later key' ih =>
    rw [← List.append_assoc, after_concat]
    exact lookup_allocate ih key'

/-- The keys served are those asked for, in the order of their first requests, as far as there are
codes. -/
theorem serves_after (base : UInt16) (requests : List TempKey) :
    (after base requests).base = base ∧
      (after base requests).Serves (requests.eraseDups.take (Arena.maxCode + 1 - base.toNat)) := by
  induction requests using List.reverseRecOn with
  | nil =>
    rw [List.eraseDups_nil, List.take_nil]
    exact ⟨rfl, serves_fresh base⟩
  | append_singleton requests key ih =>
    obtain ⟨hbase, hserves⟩ := ih
    have hroom := hserves.room
    rw [after_concat]
    rcases hserves.allocate_cases key with
      ⟨i, _, hi, _, he⟩ | ⟨hnew, hfree, code, _, he, hserves'⟩ | ⟨_, hfull, he⟩
    · have hmem : key ∈ requests :=
        List.mem_eraseDups.mp (List.mem_of_mem_take (List.mem_of_getElem? hi))
      rw [he, eraseDups_concat, if_pos hmem]
      exact ⟨hbase, hserves⟩
    · -- there is a code left, so all keys asked for have one
      rw [hbase, List.length_take] at hfree
      have hall : requests.eraseDups.take (Arena.maxCode + 1 - base.toNat) = requests.eraseDups :=
        List.take_of_length_le (by omega)
      rw [hall] at hnew hserves'
      rw [he, eraseDups_concat, if_neg (mt List.mem_eraseDups.mpr hnew), List.take_of_length_le]
      · exact ⟨hbase, hserves'⟩
      · rw [List.length_append, List.length_singleton]
        omega
    · rw [hbase, List.length_take] at hfull
      rw [he, eraseDups_concat]
      refine ⟨hbase, ?_⟩
      split
      next => exact hserves
      next =>
        rw [List.take_append_of_le_length (by omega)]
        exact hserves

/-- What an allocator holds after requests, and how it answers another one. -/
structure InOrder (base : UInt16) (requests : List TempKey) (a : Allocator) : Prop where
  keys_eq : a.assigned.map Prod.fst =
    requests.eraseDups.take (Arena.maxCode + 1 - base.toNat)
  codes_eq : a.assigned.map (UInt16.toNat ∘ Prod.snd) =
    List.range' base.toNat a.assigned.length
  room : base.toNat + a.assigned.length ≤ Arena.maxCode + 1
  next_eq : a.next.toNat = base.toNat + a.assigned.length
  isSome_iff : ∀ key, (a.assigned.lookup key).isSome = true ↔ key ∈ a.assigned.map Prod.fst
  injective : ∀ key key' code, a.assigned.lookup key = some code →
    a.assigned.lookup key' = some code → key = key'
  repeated : ∀ earlier key later code, requests = earlier ++ key :: later →
    ((after base earlier).allocate key).1 = .ok code → a.allocate key = (.ok code, a)
  fails_iff : ∀ key, (∃ fault, (a.allocate key).1 = .error fault) ↔
    key ∉ a.assigned.map Prod.fst ∧ base.toNat + a.assigned.length = Arena.maxCode + 1
  unchanged : ∀ key fault, (a.allocate key).1 = .error fault →
    fault = .temporariesExhausted a.assigned.length base ∧ (a.allocate key).2 = a

theorem Serves.injective {keys : List TempKey} (h : a.Serves keys)
    (hkey : a.assigned.lookup key = some code) (hkey' : a.assigned.lookup key' = some code) :
    key = key' := by
  obtain ⟨i, hi, hcode⟩ := h.lookup_eq_some.mp hkey
  obtain ⟨j, hj, hcode'⟩ := h.lookup_eq_some.mp hkey'
  have hij : i = j := by omega
  subst hij
  exact Option.some.inj (hi.symm.trans hj)

theorem Serves.allocate_fails_iff {keys : List TempKey} (h : a.Serves keys) :
    (∃ fault, (a.allocate key).1 = .error fault) ↔
      key ∉ keys ∧ a.base.toNat + keys.length = Arena.maxCode + 1 := by
  rcases h.allocate_cases key with
    ⟨i, _, hi, _, he⟩ | ⟨_, hfree, _, _, he, _⟩ | ⟨hnew, hfull, he⟩
  · simp [he, List.mem_of_getElem? hi]
  · have hroom : a.base.toNat + keys.length ≠ Arena.maxCode + 1 := by omega
    simp [he, hroom]
  · simp [he, hnew, hfull]

theorem inOrder_after (base : UInt16) (requests : List TempKey) :
    InOrder base requests (after base requests) := by
  obtain ⟨hbase, h⟩ := serves_after base requests
  have hlength := h.length_assigned
  have hroom := h.room
  rw [hbase] at hroom
  exact {
    keys_eq := h.keys_eq
    codes_eq := by rw [h.codes_eq, hbase, hlength]
    room := hlength ▸ hroom
    next_eq := by rw [h.next_eq, hbase, hlength]
    isSome_iff := fun _ => isSome_lookup
    injective := fun _ _ _ => h.injective
    repeated := by
      rintro earlier key later code rfl hok
      have hkept := lookup_after_append (after_concat ▸ lookup_of_allocate_ok hok) later
      rw [List.append_assoc, List.singleton_append] at hkept
      exact allocate_of_lookup hkept
    fails_iff := fun key => by rw [h.allocate_fails_iff, h.keys_eq, hlength, hbase]
    unchanged := by
      intro key fault hfault
      have herror := allocate_error hfault
      rwa [hbase] at herror }

end Allocator

/-- The answer to a request is the name of the code, and the session keeps the allocator after the
request. -/
theorem exec_temporary_allocate (key : TempKey) (s : Session) :
    (exec (temporary key) s).1 = ((s.arena.allocate key).1.map (toString ∘ UInt16.toNat)).mapError
        CompileError.failed ∧
      (exec (temporary key) s).2.arena.toAllocator = (s.arena.allocate key).2 := by
  rw [exec_temporary, Arena.request]
  cases h : (s.arena.allocate key).1 with
  | ok code => exact ⟨rfl, rfl⟩
  | error fault => exact ⟨rfl, (Allocator.allocate_error h).2.symm⟩

/-- The session after requests made one after the other, whether or not they are answered. -/
def afterRequests (base : UInt16) (requests : List TempKey) : Session :=
  requests.foldl (fun s key => (exec (temporary key) s).2) (Session.fresh base)

theorem toAllocator_afterRequests (base : UInt16) (requests : List TempKey) :
    (afterRequests base requests).arena.toAllocator = Allocator.after base requests := by
  induction requests using List.reverseRecOn with
  | nil => rfl
  | append_singleton requests key ih =>
    rw [afterRequests, List.foldl_concat, ← afterRequests, (exec_temporary_allocate key _).2, ih,
      Allocator.after_concat]

/-- Requests for any keys are served in the order of their first requests until the codes are used
up, and a session hands out the codes as the allocator does. -/
theorem requests_served_in_order (base : UInt16) (requests : List TempKey) :
    Allocator.InOrder base requests (Allocator.after base requests) ∧
    (afterRequests base requests).arena.toAllocator = Allocator.after base requests ∧
    ∀ key, (exec (temporary key) (afterRequests base requests)).1 =
      (((Allocator.after base requests).allocate key).1.map (toString ∘ UInt16.toNat)).mapError
        CompileError.failed := by
  have hsame := toAllocator_afterRequests base requests
  refine ⟨Allocator.inOrder_after base requests, hsame, ?_⟩
  intro key
  rw [(exec_temporary_allocate key _).1, hsame]

end Metamorphosis
