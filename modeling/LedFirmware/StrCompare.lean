import LedFirmware.CString
import LedFirmware.FirstDifference

/-!
# String comparison

The comparisons return the difference of two bytes.  `StrCmp`, `StrICmp` and `StrNICmp`
pass it through `s8`, which keeps its sign for differences from -128 to 127 only, and
`StrNICmp` counts its limit down before it tests it.  A read behind the bytes of a string
has no result.
-/

namespace LedFirmware

/-- The difference of two bytes, an `int`. -/
def byteDifference (ch1 ch2 : UInt8) : Int := ch1.toNat - ch2.toNat

/-- The loop of `StrCmp`. -/
def strCmpLoop : List UInt8 → List UInt8 → Option Int
  | ch1 :: str1, ch2 :: str2 =>
      if ch1 = ch2 then
        if ch1 = 0 then some 0 else strCmpLoop str1 str2
      else some (byteDifference ch1 ch2)
  | _, _ => none

def strCmp (str1 str2 : List UInt8) : Option Int8 := (strCmpLoop str1 str2).map Int8.ofInt

/-- How the comparisons without case read a character. -/
def lowerCase (ch : UInt8) : UInt8 := if ch ≥ 0x41 ∧ ch ≤ 0x5A then ch + 0x20 else ch

def strICmpLoop : List UInt8 → List UInt8 → Option Int
  | next1 :: str1, next2 :: str2 =>
      let ch1 := lowerCase next1
      let ch2 := lowerCase next2
      if ch1 ≠ 0 ∧ ch1 = ch2 then strICmpLoop str1 str2 else some (byteDifference ch1 ch2)
  | _, _ => none

def strICmp (str1 str2 : List UInt8) : Option Int8 := (strICmpLoop str1 str2).map Int8.ofInt

def strNCmpLoop : UInt32 → List UInt8 → List UInt8 → Option Int
  | n, ch1 :: str1, ch2 :: str2 =>
      if ch1 = ch2 then
        if ch1 = 0 ∨ n - 1 = 0 then some 0 else strNCmpLoop (n - 1) str1 str2
      else some (byteDifference ch1 ch2)
  | _, _, _ => none

def strNCmp (str1 str2 : List UInt8) (n : UInt32) : Option UInt32 :=
  if n = 0 then some 0 else (strNCmpLoop n str1 str2).map UInt32.ofInt

def strNICmpLoop : UInt32 → List UInt8 → List UInt8 → Option Int
  | count, next1 :: str1, next2 :: str2 =>
      let ch1 := lowerCase next1
      let ch2 := lowerCase next2
      if count - 1 ≠ 0 ∧ ch1 ≠ 0 ∧ ch1 = ch2 then strNICmpLoop (count - 1) str1 str2
      else some (byteDifference ch1 ch2)
  | _, _, _ => none

def strNICmp (str1 str2 : List UInt8) (count : UInt32) : Option Int8 :=
  (strNICmpLoop count str1 str2).map Int8.ofInt

/-! ### What the loops find -/

/-- The sign of a result is the lexicographic order of two strings. -/
def Orders (result : Option Int) (first second : List UInt8) : Prop :=
  ∃ sign, result = some sign ∧ (sign < 0 ↔ List.Lex (· < ·) first second) ∧
    (sign = 0 ↔ first = second) ∧ (0 < sign ↔ List.Lex (· < ·) second first)

/-- Where two strings first differ, their bytes are not too far apart for `s8`. -/
def Near (first second : List UInt8) : Prop :=
  ∀ ch1 ch2, FirstDiffer (first ++ [0]) (second ++ [0]) ch1 ch2 →
    -128 ≤ byteDifference ch1 ch2 ∧ byteDifference ch1 ch2 ≤ 127

/-- A result is the difference where two strings first differ. -/
structure Finds (result : Option Int) (first second : List UInt8) : Prop where
  same : first = second → result = some 0
  differs {ch1 ch2 : UInt8} : FirstDiffer (first ++ [0]) (second ++ [0]) ch1 ch2 →
    result = some (byteDifference ch1 ch2)

theorem byteDifference_bounds (ch1 ch2 : UInt8) :
    -255 ≤ byteDifference ch1 ch2 ∧ byteDifference ch1 ch2 ≤ 255 := by
  have bound1 := ch1.toNat_lt
  have bound2 := ch2.toNat_lt
  rw [byteDifference]
  omega

theorem byteDifference_neg {ch1 ch2 : UInt8} : byteDifference ch1 ch2 < 0 ↔ ch1 < ch2 := by
  rw [byteDifference, UInt8.lt_iff_toNat_lt]
  omega

theorem byteDifference_ne_zero {ch1 ch2 : UInt8} (differ : ch1 ≠ ch2) :
    byteDifference ch1 ch2 ≠ 0 := by
  intro zero
  rw [byteDifference] at zero
  exact differ (UInt8.toNat_inj.mp (by omega))

variable {first second : List UInt8}

theorem finds_self (text : List UInt8) : Finds (some 0) text text :=
  ⟨fun _ => rfl, fun differs => absurd rfl differs.lists_ne⟩

theorem finds_of_firstDiffer {ch1 ch2 : UInt8}
    (differs : FirstDiffer (first ++ [0]) (second ++ [0]) ch1 ch2) :
    Finds (some (byteDifference ch1 ch2)) first second := by
  refine ⟨fun same => absurd (by rw [same]) differs.lists_ne, fun differs' => ?_⟩
  obtain ⟨rfl, rfl⟩ := differs.unique differs'
  rfl

theorem Finds.cons {result : Option Int} (found : Finds result first second) (ch : UInt8) :
    Finds result (ch :: first) (ch :: second) := by
  refine ⟨fun same => found.same (List.cons.inj same).2, fun differs => ?_⟩
  cases differs with
  | here differ => exact absurd rfl differ
  | later differs => exact found.differs differs

theorem strCmpLoop_finds (noNul : 0 ∉ first) (noNul' : 0 ∉ second) :
    Finds (strCmpLoop (first ++ [0]) (second ++ [0])) first second := by
  induction first generalizing second with
  | nil =>
      cases second with
      | nil => exact finds_self []
      | cons ch rest =>
          have apart : (0 : UInt8) ≠ ch := (List.ne_of_not_mem_cons noNul')
          have step : strCmpLoop ([] ++ [0]) (ch :: rest ++ [0]) = some (byteDifference 0 ch) := by
            simp [strCmpLoop, apart]
          rw [step]
          exact finds_of_firstDiffer (FirstDiffer.here apart)
  | cons ch rest ih =>
      have present : ch ≠ 0 := (List.ne_of_not_mem_cons noNul).symm
      cases second with
      | nil =>
          have step : strCmpLoop (ch :: rest ++ [0]) ([] ++ [0]) = some (byteDifference ch 0) := by
            simp [strCmpLoop, present]
          rw [step]
          exact finds_of_firstDiffer (FirstDiffer.here present)
      | cons ch' rest' =>
          by_cases equal : ch = ch'
          · subst equal
            have step : strCmpLoop (ch :: rest ++ [0]) (ch :: rest' ++ [0]) =
                strCmpLoop (rest ++ [0]) (rest' ++ [0]) := by
              simp [strCmpLoop, present]
            rw [step]
            exact (ih (List.not_mem_of_not_mem_cons noNul)
              (List.not_mem_of_not_mem_cons noNul')).cons ch
          · have step : strCmpLoop (ch :: rest ++ [0]) (ch' :: rest' ++ [0]) =
                some (byteDifference ch ch') := by
              simp [strCmpLoop, equal]
            rw [step]
            exact finds_of_firstDiffer (FirstDiffer.here equal)

theorem toNat_pred {n : UInt32} (positive : n ≠ 0) : (n - 1).toNat + 1 = n.toNat := by
  have positive' : n.toNat ≠ 0 := fun zero => positive (UInt32.toNat_inj.mp zero)
  have one : (1 : UInt32) ≤ n := by
    rw [UInt32.le_iff_toNat_le, UInt32.toNat_one]
    omega
  rw [UInt32.toNat_sub_of_le _ _ one, UInt32.toNat_one]
  omega

/-- The loop looks at as many characters as its counter allows, 2^32 for a counter of 0. -/
theorem strNCmpLoop_finds (noNul : 0 ∉ first) (noNul' : 0 ∉ second) (n : UInt32) :
    Finds (strNCmpLoop n (first ++ [0]) (second ++ [0]))
      (first.take ((n - 1).toNat + 1)) (second.take ((n - 1).toNat + 1)) := by
  induction first generalizing second n with
  | nil =>
      cases second with
      | nil =>
          have step : strNCmpLoop n ([] ++ [0]) ([] ++ [0]) = some 0 := by simp [strNCmpLoop]
          rw [step]
          exact finds_self _
      | cons ch rest =>
          have apart : (0 : UInt8) ≠ ch := (List.ne_of_not_mem_cons noNul')
          have step : strNCmpLoop n ([] ++ [0]) (ch :: rest ++ [0]) =
              some (byteDifference 0 ch) := by
            simp [strNCmpLoop, apart]
          rw [step]
          exact finds_of_firstDiffer (FirstDiffer.here apart)
  | cons ch rest ih =>
      have present : ch ≠ 0 := (List.ne_of_not_mem_cons noNul).symm
      cases second with
      | nil =>
          have step : strNCmpLoop n (ch :: rest ++ [0]) ([] ++ [0]) =
              some (byteDifference ch 0) := by
            simp [strNCmpLoop, present]
          rw [step]
          exact finds_of_firstDiffer (FirstDiffer.here present)
      | cons ch' rest' =>
          rw [List.take_succ_cons, List.take_succ_cons]
          by_cases equal : ch = ch'
          · subst equal
            by_cases last : n - 1 = 0
            · have step : strNCmpLoop n (ch :: rest ++ [0]) (ch :: rest' ++ [0]) = some 0 := by
                simp [strNCmpLoop, last]
              rw [step, last, UInt32.toNat_zero, List.take_zero, List.take_zero]
              exact finds_self [ch]
            · have step : strNCmpLoop n (ch :: rest ++ [0]) (ch :: rest' ++ [0]) =
                  strNCmpLoop (n - 1) (rest ++ [0]) (rest' ++ [0]) := by
                simp [strNCmpLoop, present, last]
              rw [step, ← toNat_pred last]
              exact (ih (List.not_mem_of_not_mem_cons noNul)
                (List.not_mem_of_not_mem_cons noNul') (n - 1)).cons ch
          · have step : strNCmpLoop n (ch :: rest ++ [0]) (ch' :: rest' ++ [0]) =
                some (byteDifference ch ch') := by
              simp [strNCmpLoop, equal]
            rw [step]
            exact finds_of_firstDiffer (FirstDiffer.here equal)

/-- Without case the loops are those of the lower-case strings. -/
theorem strICmpLoop_eq (str1 str2 : List UInt8) :
    strICmpLoop str1 str2 = strCmpLoop (str1.map lowerCase) (str2.map lowerCase) := by
  induction str1 generalizing str2 with
  | nil => rfl
  | cons ch1 str1 ih =>
      cases str2 with
      | nil => rfl
      | cons ch2 str2 =>
          simp only [strICmpLoop, strCmpLoop, List.map_cons, ih]
          by_cases equal : lowerCase ch1 = lowerCase ch2
          · by_cases last : lowerCase ch1 = 0
            · simp [← equal, last, byteDifference]
            · simp [← equal, last]
          · simp [equal]

theorem strNICmpLoop_eq (count : UInt32) (str1 str2 : List UInt8) :
    strNICmpLoop count str1 str2 =
      strNCmpLoop count (str1.map lowerCase) (str2.map lowerCase) := by
  induction str1 generalizing str2 count with
  | nil => rfl
  | cons ch1 str1 ih =>
      cases str2 with
      | nil => rfl
      | cons ch2 str2 =>
          simp only [strNICmpLoop, strNCmpLoop, List.map_cons, ih]
          by_cases equal : lowerCase ch1 = lowerCase ch2
          · by_cases last : lowerCase ch1 = 0
            · simp [← equal, last, byteDifference]
            · by_cases spent : count - 1 = 0
              · simp [← equal, last, spent, byteDifference]
              · simp [← equal, last, spent]
          · simp [equal]

theorem lowerCase_eq_zero {ch : UInt8} : lowerCase ch = 0 ↔ ch = 0 := by
  revert ch
  apply LittleEndian.forall_byte
  decide +kernel

theorem zero_not_mem_map_lowerCase (noNul : 0 ∉ first) : 0 ∉ first.map lowerCase := by
  rw [List.mem_map]
  rintro ⟨ch, member, zero⟩
  exact noNul (lowerCase_eq_zero.mp zero ▸ member)

theorem CString.map_lowerCase_bytes (text : CString) :
    text.bytes.map lowerCase = text.chars.map lowerCase ++ [0] := by
  rw [CString.bytes, List.map_append]
  rfl

/-! ### The sign of what is found -/

section

variable {result : Option Int}

theorem lex_iff_byteDifference {ch1 ch2 : UInt8} (noNul : 0 ∉ first) (noNul' : 0 ∉ second)
    (differs : FirstDiffer (first ++ [0]) (second ++ [0]) ch1 ch2) :
    List.Lex (· < ·) first second ↔ byteDifference ch1 ch2 < 0 := by
  have asymm : ∀ {one other : UInt8}, one < other → ¬ other < one :=
    fun smaller => UInt8.lt_asymm smaller
  have least {text : List UInt8} (noNul : 0 ∉ text) (ch : UInt8) (member : ch ∈ text) : 0 < ch :=
    UInt8.pos_iff_ne_zero.mpr fun zero => noNul (zero ▸ member)
  rw [byteDifference_neg]
  exact differs.lex_iff asymm (least noNul) (least noNul')

/-- A conversion keeps the order where it keeps the sign of the difference. -/
theorem Finds.orders_map_iff (noNul : 0 ∉ first) (noNul' : 0 ∉ second)
    (found : Finds result first second) {convert : Int → Int} (zero : convert 0 = 0) :
    Orders (result.map convert) first second ↔
      ∀ ch1 ch2, FirstDiffer (first ++ [0]) (second ++ [0]) ch1 ch2 →
        (convert (byteDifference ch1 ch2) < 0 ↔ byteDifference ch1 ch2 < 0) ∧
        convert (byteDifference ch1 ch2) ≠ 0 ∧
        (0 < convert (byteDifference ch1 ch2) ↔ byteDifference ch2 ch1 < 0) := by
  constructor
  · rintro ⟨sign, isResult, negative, none, positive⟩ ch1 ch2 differs
    rw [found.differs differs, Option.map_some, Option.some.injEq] at isResult
    have apart : first ≠ second := fun same => differs.lists_ne (by rw [same])
    rw [isResult, negative, positive, lex_iff_byteDifference noNul noNul' differs,
      lex_iff_byteDifference noNul' noNul differs.symm]
    exact ⟨Iff.rfl, fun equal => apart (none.mp equal), Iff.rfl⟩
  · intro keeps
    by_cases same : first = second
    · subst same
      have notLess : ¬ List.Lex (· < ·) first first :=
        FirstDiffer.not_lex_self (fun smaller => UInt8.lt_asymm smaller) first
      refine ⟨0, by rw [found.same rfl, Option.map_some, zero], ?_, ?_, ?_⟩
      · exact iff_of_false (Int.lt_irrefl 0) notLess
      · exact iff_of_true rfl rfl
      · exact iff_of_false (Int.lt_irrefl 0) notLess
    · obtain ⟨ch1, ch2, differs⟩ := FirstDiffer.exists_of_ne noNul noNul' same
      obtain ⟨negative, nonzero, positive⟩ := keeps ch1 ch2 differs
      refine ⟨convert (byteDifference ch1 ch2), by rw [found.differs differs, Option.map_some],
        ?_, iff_of_false nonzero same, ?_⟩
      · rw [negative, lex_iff_byteDifference noNul noNul' differs]
      · rw [positive, lex_iff_byteDifference noNul' noNul differs.symm]

theorem byteDifference_comm (ch1 ch2 : UInt8) :
    byteDifference ch2 ch1 = -byteDifference ch1 ch2 := by
  rw [byteDifference, byteDifference]
  omega

/-- `s8` keeps the sign of the differences from -128 to 127. -/
theorem s8_sign_iff {value : Int} (bounds : -255 ≤ value ∧ value ≤ 255) (nonzero : value ≠ 0) :
    (((Int8.ofInt value).toInt < 0 ↔ value < 0) ∧ (Int8.ofInt value).toInt ≠ 0 ∧
      (0 < (Int8.ofInt value).toInt ↔ -value < 0)) ↔ -128 ≤ value ∧ value ≤ 127 := by
  rw [Int8.toInt_ofInt, Int8.size, Int.bmod_def]
  split
  · omega
  · omega

/-- A `u32` that is read as signed keeps every difference of two bytes. -/
theorem u32_signed {value : Int} (bounds : -255 ≤ value ∧ value ≤ 255) :
    (UInt32.ofInt value).toInt32.toInt = value := by
  have wrapped : (UInt32.ofInt value).toBitVec.toNat = (value % 2 ^ 32).toNat := by
    change (BitVec.ofNat 32 (value % 2 ^ 32).toNat).toNat = _
    rw [BitVec.toNat_ofNat]
    omega
  change (UInt32.ofInt value).toBitVec.toInt = value
  rw [BitVec.toInt_eq_toNat_cond, wrapped]
  split
  · omega
  · omega

/-- `s8` keeps the order of strings whose first difference is not too large, and of no
others. -/
theorem Finds.orders_s8_iff (noNul : 0 ∉ first) (noNul' : 0 ∉ second)
    (found : Finds result first second) :
    Orders ((result.map Int8.ofInt).map Int8.toInt) first second ↔ Near first second := by
  rw [Option.map_map, found.orders_map_iff noNul noNul' rfl, Near]
  refine forall₃_congr fun ch1 ch2 differs => ?_
  rw [byteDifference_comm ch1 ch2, Function.comp_apply]
  exact s8_sign_iff (byteDifference_bounds ch1 ch2) (byteDifference_ne_zero differs.ne)

/-- Through `s8` no difference of two bytes becomes 0. -/
theorem Finds.s8_eq_zero_iff (noNul : 0 ∉ first) (noNul' : 0 ∉ second)
    (found : Finds result first second) :
    (result.map Int8.ofInt).map Int8.toInt = some 0 ↔ first = second := by
  rw [Option.map_map]
  refine ⟨fun isZero => ?_, fun same => by rw [found.same same]; rfl⟩
  by_contra differ
  obtain ⟨ch1, ch2, differs⟩ := FirstDiffer.exists_of_ne noNul noNul' differ
  have bounds := byteDifference_bounds ch1 ch2
  have nonzero := byteDifference_ne_zero differs.ne
  rw [found.differs differs, Option.map_some, Option.some.injEq, Function.comp_apply,
    Int8.toInt_ofInt, Int8.size, Int.bmod_def] at isZero
  split at isZero
  · omega
  · omega

theorem Finds.orders_u32 (noNul : 0 ∉ first) (noNul' : 0 ∉ second)
    (found : Finds result first second) :
    Orders ((result.map UInt32.ofInt).map fun value => value.toInt32.toInt) first second := by
  rw [Option.map_map, found.orders_map_iff noNul noNul' rfl]
  intro ch1 ch2 differs
  have nonzero := byteDifference_ne_zero differs.ne
  rw [byteDifference_comm ch1 ch2, Function.comp_apply, u32_signed (byteDifference_bounds ch1 ch2)]
  omega

end

/-! ### The comparisons -/

/-- `StrNICmp` with a limit of 0 compares 2^32 characters and is right where they agree. -/
def NearWithin (count : UInt32) (first second : List UInt8) : Prop :=
  if count = 0 then first.take (2 ^ 32) = second.take (2 ^ 32)
  else Near (first.take count.toNat) (second.take count.toNat)

theorem not_mem_take (noNul : 0 ∉ first) (count : Nat) : 0 ∉ first.take count :=
  fun member => noNul (List.mem_of_mem_take member)

theorem strNCmp_orders (first second : CString) (n : UInt32) :
    Orders ((strNCmp first.bytes second.bytes n).map fun value => value.toInt32.toInt)
      (first.chars.take n.toNat) (second.chars.take n.toNat) := by
  by_cases none : n = 0
  · subst none
    exact (finds_self []).orders_u32 (List.not_mem_nil) (List.not_mem_nil)
  · have found := strNCmpLoop_finds first.noNul second.noNul n
    rw [toNat_pred none] at found
    rw [strNCmp, if_neg none]
    exact found.orders_u32 (not_mem_take first.noNul _) (not_mem_take second.noNul _)

theorem orders_nil_iff {result : Option Int} : Orders result [] [] ↔ result = some 0 := by
  constructor
  · rintro ⟨sign, isResult, -, zero, -⟩
    rw [isResult, zero.mpr rfl]
  · rintro rfl
    exact ⟨0, rfl, iff_of_false (Int.lt_irrefl 0) nofun, iff_of_true rfl rfl,
      iff_of_false (Int.lt_irrefl 0) nofun⟩

theorem strNICmp_orders_iff (first second : CString) (n : UInt32) :
    Orders ((strNICmp first.bytes second.bytes n).map Int8.toInt)
        ((first.chars.take n.toNat).map lowerCase) ((second.chars.take n.toNat).map lowerCase) ↔
      NearWithin n (first.chars.map lowerCase) (second.chars.map lowerCase) := by
  have noNul := zero_not_mem_map_lowerCase first.noNul
  have noNul' := zero_not_mem_map_lowerCase second.noNul
  have found := strNCmpLoop_finds noNul noNul' n
  rw [strNICmp, strNICmpLoop_eq, CString.map_lowerCase_bytes, CString.map_lowerCase_bytes,
    NearWithin, List.map_take, List.map_take]
  by_cases none : n = 0
  · subst none
    change Finds _ ((first.chars.map lowerCase).take (2 ^ 32))
      ((second.chars.map lowerCase).take (2 ^ 32)) at found
    rw [if_pos rfl, ← found.s8_eq_zero_iff (not_mem_take noNul _) (not_mem_take noNul' _)]
    exact orders_nil_iff
  · rw [toNat_pred none] at found
    rw [if_neg none]
    exact found.orders_s8_iff (not_mem_take noNul _) (not_mem_take noNul' _)

/-- When the comparisons give the lexicographic order: `StrNCmp` always, the others where the
first difference fits `s8` and no limit of 0 makes `StrNICmp` look further. -/
theorem comparisons_order_iff (first second : CString) (n : UInt32) :
    (Orders ((strCmp first.bytes second.bytes).map Int8.toInt) first.chars second.chars ↔
        Near first.chars second.chars) ∧
      (Orders ((strICmp first.bytes second.bytes).map Int8.toInt)
          (first.chars.map lowerCase) (second.chars.map lowerCase) ↔
        Near (first.chars.map lowerCase) (second.chars.map lowerCase)) ∧
      Orders ((strNCmp first.bytes second.bytes n).map fun value => value.toInt32.toInt)
        (first.chars.take n.toNat) (second.chars.take n.toNat) ∧
      (Orders ((strNICmp first.bytes second.bytes n).map Int8.toInt)
          ((first.chars.take n.toNat).map lowerCase)
          ((second.chars.take n.toNat).map lowerCase) ↔
        NearWithin n (first.chars.map lowerCase) (second.chars.map lowerCase)) := by
  refine ⟨?_, ?_, strNCmp_orders first second n, strNICmp_orders_iff first second n⟩
  · exact (strCmpLoop_finds first.noNul second.noNul).orders_s8_iff first.noNul second.noNul
  · have noNul := zero_not_mem_map_lowerCase first.noNul
    have noNul' := zero_not_mem_map_lowerCase second.noNul
    rw [strICmp, strICmpLoop_eq, CString.map_lowerCase_bytes, CString.map_lowerCase_bytes]
    exact (strCmpLoop_finds noNul noNul').orders_s8_iff noNul noNul'

/-- A byte of the upper half behind a letter: `StrCmp` finds it smaller. -/
theorem strCmp_upper_half :
    ¬ Orders ((strCmp (CString.mk [0xE9] (by decide)).bytes
      (CString.mk [0x61] (by decide)).bytes).map Int8.toInt) [0xE9] [0x61] := by
  rintro ⟨sign, isResult, -, -, positive⟩
  have negative : some sign = some (-120) := isResult.symm.trans (by decide)
  have larger : 0 < sign := positive.mpr (List.Lex.rel (by decide))
  rw [Option.some.inj negative] at larger
  exact absurd larger (by decide)

end LedFirmware
