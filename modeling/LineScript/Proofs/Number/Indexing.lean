import LineScript.Proofs.Number.Counting
import LineScript.Value.Operators

/-!
# Numbers as indices

A number is an index if its exact value is a whole number that is small enough and below the length
of the list. It is the index of that element and of no other.

  * `Number.index?_eq_some_iff`: which numbers are indices, and which indices they are.
  * `Number.index?_ofCount`: counts are converted to indices and back without loss.
  * `Value.removeAt_eq_ok_iff`, `Value.elementAt_eq_ok_iff`: the element that is removed or given
    has as many elements before it as the number says.
  * `Value.indices_are_exact`: all of this in one.

**Cutting off.** The conversion to a whole number forgets what follows the point and is clamped to
64 bits. The way back to a double shows whether anything was lost: it gives the number again only if
the number was whole.
-/

namespace LineScript

namespace Number

variable {x : Float} {k length : Nat}

/-! ### Indices -/

theorem value?_zero : value? 0 = some 0 :=
  rfl

theorem value?_maxSafe : value? maxSafe = some ((2 ^ 53 - 1 : Nat) : ℚ) :=
  value?_ofCount (by decide : 2 ^ 53 - 1 < 2 ^ 53)

/-- A number is an index if its exact value is a whole number in the list, at most `maxSafe`. -/
theorem index?_eq_some_iff :
    index? x length = some k ↔ value? x = some (k : ℚ) ∧ k ≤ 2 ^ 53 - 1 ∧ k < length := by
  have hback {i : UInt64} (hi : i.toNat < 2 ^ 53) : value? i.toFloat = some (i.toNat : ℚ) := by
    have hsame : i.toNat.toUInt64 = i := UInt64.ofNat_toNat
    rw [← value?_ofCount hi, ← toFloat_toUInt64 hi, hsame]
  unfold index?
  dsimp only
  constructor
  · intro h
    split at h
    · next hconditions =>
      obtain ⟨hlow, hhigh, hsame, hlength⟩ := hconditions
      obtain rfl := Option.some.inj h
      obtain ⟨q, hq⟩ := exists_value?_of_between value?_zero value?_maxSafe hlow hhigh
      have hnonneg : 0 ≤ q := (le_iff value?_zero hq).mp hlow
      have hsafe : q ≤ (2 ^ 53 - 1 : Nat) := (le_iff hq value?_maxSafe).mp hhigh
      have hfloor := floor_toUInt64 hq hnonneg (lt_of_le_of_lt hsafe (by norm_num))
      have hle : x.toUInt64.toNat ≤ 2 ^ 53 - 1 := by
        exact_mod_cast le_trans hfloor.1 hsafe
      -- nothing was cut off
      have hwhole : (x.toUInt64.toNat : ℚ) = q := (beq_iff (hback (by omega)) hq).mp hsame
      exact ⟨by rw [hq, hwhole], hle, hlength⟩
    · cases h
  · rintro ⟨hx, hsafe, hlength⟩
    have hcast : (k : ℚ) ≤ (2 ^ 53 - 1 : Nat) := by exact_mod_cast hsafe
    have hfloor := floor_toUInt64 hx (Nat.cast_nonneg k) (lt_of_le_of_lt hcast (by norm_num))
    have hk : x.toUInt64.toNat = k := by
      have hle : x.toUInt64.toNat ≤ k := by exact_mod_cast hfloor.1
      have hlt : k < x.toUInt64.toNat + 1 := by exact_mod_cast hfloor.2
      omega
    have hlow : 0 ≤ x := (le_iff value?_zero hx).mpr (Nat.cast_nonneg k)
    have hhigh : x ≤ maxSafe := (le_iff hx value?_maxSafe).mpr hcast
    have hsame : (x.toUInt64.toFloat == x) = true :=
      (beq_iff (hback (by omega)) hx).mpr (by rw [hk])
    rw [hk, if_pos ⟨hlow, hhigh, hsame, hlength⟩]

/-- A count is converted to its own index. -/
theorem index?_ofCount (hk : k ≤ 2 ^ 53 - 1) :
    index? (ofCount k) length = if k < length then some k else none := by
  have hvalue : value? (ofCount k) = some (k : ℚ) := value?_ofCount (by omega)
  split
  · next hlength => exact index?_eq_some_iff.mpr ⟨hvalue, hk, hlength⟩
  · next hlength =>
    cases hindex : index? (ofCount k) length with
    | none => rfl
    | some i =>
      obtain ⟨hi, -, hlt⟩ := index?_eq_some_iff.mp hindex
      rw [hvalue] at hi
      have hsame : k = i := by exact_mod_cast Option.some.inj hi
      exact absurd (hsame ▸ hlt) hlength

/-- Written as a place in a list: as many elements stand before it as the number says. -/
theorem index?_length_eq_some_iff {α : Type} {elements : List α} :
    index? x elements.length = some k ↔
      ∃ before item after, elements = before ++ item :: after ∧ before.length = k ∧
        value? x = some (before.length : ℚ) ∧ before.length ≤ 2 ^ 53 - 1 := by
  rw [index?_eq_some_iff]
  constructor
  · rintro ⟨hx, hsafe, hlength⟩
    have hbefore : (elements.take k).length = k := List.length_take_of_le hlength.le
    refine ⟨elements.take k, elements[k], elements.drop (k + 1), ?_, hbefore, ?_, ?_⟩
    · rw [List.getElem_cons_drop, List.take_append_drop]
    · rw [hbefore, hx]
    · rw [hbefore]
      exact hsafe
  · rintro ⟨before, item, after, rfl, rfl, hx, hsafe⟩
    refine ⟨hx, hsafe, ?_⟩
    rw [List.length_append, List.length_cons]
    omega

end Number

namespace Value

open Number

variable {elements : List Value} {x : Float} {item result : Value} {cause : Cause}

/-! ### Lists -/

/-- The element that is removed has as many elements before it as the number says. -/
theorem removeAt_eq_ok_iff :
    removeAt elements x = .ok result ↔
      ∃ before item after, elements = before ++ item :: after ∧
        value? x = some (before.length : ℚ) ∧ before.length ≤ 2 ^ 53 - 1 ∧
        result = .list (before ++ after) := by
  have herase (before : List Value) (item : Value) (after : List Value) :
      (before ++ item :: after).eraseIdx before.length = before ++ after := by
    rw [List.eraseIdx_append_of_length_le (Nat.le_refl _), Nat.sub_self, List.eraseIdx_cons_zero]
  constructor
  · intro h
    unfold removeAt at h
    split at h
    · next k hk =>
      obtain ⟨before, item, after, rfl, rfl, hx, hsafe⟩ := index?_length_eq_some_iff.mp hk
      rw [herase] at h
      cases h
      exact ⟨before, item, after, rfl, hx, hsafe, rfl⟩
    · cases h
  · rintro ⟨before, item, after, rfl, hx, hsafe, rfl⟩
    rw [removeAt, index?_length_eq_some_iff.mpr ⟨before, item, after, rfl, rfl, hx, hsafe⟩]
    show Except.ok (list ((before ++ item :: after).eraseIdx before.length)) = _
    rw [herase]

/-- So has the element that is given. -/
theorem elementAt_eq_ok_iff :
    elementAt elements x = .ok item ↔
      ∃ before after, elements = before ++ item :: after ∧
        value? x = some (before.length : ℚ) ∧ before.length ≤ 2 ^ 53 - 1 := by
  have hthere (before : List Value) (item : Value) (after : List Value) :
      (before ++ item :: after)[before.length]? = some item := by
    rw [List.getElem?_append_right (Nat.le_refl _), Nat.sub_self, List.getElem?_cons_zero]
  constructor
  · intro h
    unfold elementAt at h
    split at h
    · next v hv =>
      obtain ⟨k, hk, hv⟩ := Option.bind_eq_some_iff.mp hv
      obtain ⟨before, item', after, rfl, rfl, hx, hsafe⟩ := index?_length_eq_some_iff.mp hk
      rw [hthere] at hv
      cases hv
      cases h
      exact ⟨before, after, rfl, hx, hsafe⟩
    · cases h
  · rintro ⟨before, after, rfl, hx, hsafe⟩
    rw [elementAt, index?_length_eq_some_iff.mpr ⟨before, item, after, rfl, rfl, hx, hsafe⟩,
      Option.bind_some, hthere]

/-- A number that is no index is reported together with the length of the list. -/
theorem cause_of_removeAt (h : removeAt elements x = .error cause) :
    cause = .indexOutOfBounds x elements.length := by
  unfold removeAt at h
  split at h <;> cases h
  rfl

theorem cause_of_elementAt (h : elementAt elements x = .error cause) :
    cause = .indexOutOfBounds x elements.length := by
  unfold elementAt at h
  split at h <;> cases h
  rfl

/-- **Indices are exact.** A number is the index `k` in a list of some length exactly if it is
finite, its exact value is `k`, and `k` is at most `2 ^ 53 - 1` and below the length; both zeros are
the index zero. A count that is made a number is its own index, if it is below the length. So the
operators on lists remove and give the element that has as many elements before it as the number
says, and fail if there is none. -/
theorem indices_are_exact (x : Float) (length : Nat) :
    (∀ k : Nat, index? x length = some k ↔
      x.isFinite = true ∧ value? x = some (k : ℚ) ∧ k ≤ 2 ^ 53 - 1 ∧ k < length) ∧
    (∀ k : Nat, k ≤ 2 ^ 53 - 1 →
      index? (ofCount k) length = if k < length then some k else none) ∧
    ∀ elements : List Value,
      (∀ result, applyBinary .sub (.list elements) (.number x) = .ok result ↔
        ∃ before item after, elements = before ++ item :: after ∧
          value? x = some (before.length : ℚ) ∧ before.length ≤ 2 ^ 53 - 1 ∧
          result = .list (before ++ after)) ∧
      (∀ item, applyBinary .div (.list elements) (.number x) = .ok item ↔
        ∃ before after, elements = before ++ item :: after ∧
          value? x = some (before.length : ℚ) ∧ before.length ≤ 2 ^ 53 - 1) ∧
      ∀ cause, (applyBinary .sub (.list elements) (.number x) = .error cause ∨
          applyBinary .div (.list elements) (.number x) = .error cause) →
        cause = .indexOutOfBounds x elements.length := by
  refine ⟨?_, fun k => index?_ofCount, ?_⟩
  · intro k
    rw [index?_eq_some_iff]
    exact ⟨fun h => ⟨isFinite_of_value? h.1, h⟩, And.right⟩
  · intro elements
    refine ⟨fun result => removeAt_eq_ok_iff, fun item => elementAt_eq_ok_iff, ?_⟩
    rintro cause (h | h)
    · exact cause_of_removeAt h
    · exact cause_of_elementAt h

/-- The greatest index there can be, a negative zero that removes the first element, and a half that
is no index. -/
theorem greatest_index_and_negative_zero :
    9007199254740991 ≤ 2 ^ 53 - 1 ∧
      index? (ofCount 9007199254740991) (2 ^ 53) = some 9007199254740991 ∧
      applyBinary .sub (.list [.text "a", .text "b"]) (.number (-0)) = .ok (.list [.text "b"]) ∧
      ∃ cause, applyBinary .div (.list [.text "a", .text "b"]) (.number 0.5) = .error cause ∧
        cause = .indexOutOfBounds 0.5 2 := by
  obtain ⟨-, hcount, hlists⟩ := indices_are_exact (-0) (2 ^ 53)
  obtain ⟨hremove, -, -⟩ := hlists [.text "a", .text "b"]
  obtain ⟨-, -, hcause⟩ := (indices_are_exact 0.5 2).2.2 [.text "a", .text "b"]
  have hhalf : applyBinary .div (.list [.text "a", .text "b"]) (.number 0.5) =
      .error (.indexOutOfBounds 0.5 2) := rfl
  refine ⟨by decide, ?_, ?_, _, hhalf, hcause _ (.inr hhalf)⟩
  · rw [hcount 9007199254740991 (by decide), if_pos (by decide)]
  · exact (hremove _).mpr ⟨[], .text "a", [.text "b"], rfl, rfl, by decide, rfl⟩

end Value

end LineScript
