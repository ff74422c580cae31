import Tinycoro.Basic
import Mathlib.Data.List.DropRight
import Mathlib.Data.List.Basic

/-! The byte-level text helpers of the request parser, in the C locale. -/
namespace Tinycoro.Http

/-- The bytes of an ASCII literal of the source. -/
def ascii (text : String) : Bytes := text.toList.map (fun c => UInt8.ofNat c.toNat)

/-- The character set `" \t\r\n"` that `trim` removes. -/
def blanks : Bytes := [32, 9, 13, 10]

def isBlank (c : UInt8) : Bool := blanks.contains c

/-- `std::isspace` in the C locale: space, `\t`, `\n`, `\v`, `\f`, `\r`. -/
def isSpace (c : UInt8) : Bool := c = 32 || (9 ≤ c && c ≤ 13)

def isDigit (c : UInt8) : Bool := 48 ≤ c && c ≤ 57

def tolower (c : UInt8) : UInt8 := if 65 ≤ c && c ≤ 90 then c + 32 else c

/-- `std::string::find_first_not_of`. -/
def findFirstNotOf (value : Bytes) : Option Nat := value.findIdx? (fun c => !isBlank c)

/-- `std::string::find_last_not_of`. -/
def findLastNotOf (value : Bytes) : Option Nat :=
  (value.reverse.findIdx? (fun c => !isBlank c)).map (fun i => value.length - 1 - i)

/-- `std::string::substr`. -/
def substr (value : Bytes) (pos count : Nat) : Bytes := (value.drop pos).take count

def trim (value : Bytes) : Bytes :=
  match findFirstNotOf value with
  | none => []
  | some first =>
    match findLastNotOf value with
    | none => []
    | some last => substr value first (last - first + 1)

/-- The intended meaning of `trim`: no blank at either end. -/
def strip (value : Bytes) : Bytes := (value.dropWhile isBlank).rdropWhile isBlank

/-- `trim` removes exactly the leading and the trailing blanks. -/
theorem trim_eq_strip (value : Bytes) : trim value = strip value := by
  unfold trim strip findFirstNotOf
  cases hFirst : value.findIdx? (fun c => !isBlank c) with
  | none =>
    rw [List.findIdx?_eq_none_iff] at hFirst
    have hNil : value.dropWhile isBlank = [] := by
      rw [List.dropWhile_eq_nil_iff]
      intro c hc
      simpa using hFirst c hc
    simp [hNil]
  | some first =>
    obtain ⟨hLt, hHead, hBefore⟩ := List.findIdx?_eq_some_iff_getElem.mp hFirst
    have hDrop : value.dropWhile isBlank = value.drop first := by
      rw [List.dropWhile_eq_drop_findIdx_not]
      congr 1
      exact (List.findIdx?_eq_some_iff_findIdx_eq.mp hFirst).2
    have hMem : value[first] ∈ value.reverse := by simp
    cases hLast : value.reverse.findIdx? (fun c => !isBlank c) with
    | none =>
      have hAll := List.findIdx?_eq_none_iff.mp hLast value[first] hMem
      simp [hAll] at hHead
    | some back =>
      obtain ⟨hBack, hIdx⟩ := List.findIdx?_eq_some_iff_findIdx_eq.mp hLast
      -- The scan from the right stops at or right of the first kept byte.
      have hLe : first + back + 1 ≤ value.length := by
        by_contra hGt
        obtain ⟨hB, hKeep, hSkip⟩ := List.findIdx?_eq_some_iff_getElem.mp hLast
        have hPos : value.length - 1 - first < back := by omega
        have hBlank := hSkip _ hPos
        rw [List.getElem_reverse] at hBlank
        have hSame : value.length - 1 - (value.length - 1 - first) = first := by omega
        simp only [hSame] at hBlank
        exact hBlank hHead
      rw [List.length_reverse] at hBack
      simp only [findLastNotOf, hLast, Option.map_some, hDrop, substr, List.rdropWhile]
      rw [List.reverse_drop, List.dropWhile_eq_drop_findIdx_not]
      have hTake : (value.reverse.take (value.length - first)).findIdx (fun c => !isBlank c) =
          back := by
        rw [List.findIdx_take, hIdx]
        omega
      rw [hTake, List.drop_take, List.reverse_take, List.length_drop, List.length_reverse,
        List.reverse_drop, List.reverse_reverse, List.length_reverse, List.drop_take]
      congr 1 <;> congr 1 <;> omega

/-- Equal up to ASCII case. The source compares the sizes first, then the
lowered characters in step. -/
def iequals (lhs rhs : Bytes) : Bool :=
  lhs.length == rhs.length &&
    (lhs.zip rhs).all (fun pair => tolower pair.1 == tolower pair.2)

theorem iequals_iff (lhs rhs : Bytes) :
    iequals lhs rhs = true ↔ lhs.map tolower = rhs.map tolower := by
  unfold iequals
  induction lhs generalizing rhs with
  | nil => cases rhs <;> simp
  | cons c lhs ih =>
    cases rhs with
    | nil => simp
    | cons d rhs =>
      have hTail := ih rhs
      simp only [Bool.and_eq_true, beq_iff_eq] at hTail
      simp only [List.length_cons, List.zip_cons_cons, List.all_cons, Bool.and_eq_true,
        beq_iff_eq, Nat.add_right_cancel_iff, List.map_cons, List.cons.injEq, ← hTail]
      tauto

/-- The number written by a run of decimal digits. -/
def decimal (digits : Bytes) : Nat :=
  digits.foldl (fun value c => value * 10 + (c.toNat - 48)) 0

/-- `std::from_chars` for a base-10 `size_t`. The digits are the longest run at
the front; `ptr` is the offset behind them. `parsed` is absent for both error
codes, no digits and a value out of range. -/
structure FromChars where
  parsed : Option Nat
  ptr : Nat

def fromChars (value : Bytes) : FromChars :=
  let digits := value.takeWhile isDigit
  if digits = [] then ⟨none, 0⟩
  else if decimal digits ≤ sizeMax then ⟨some (decimal digits), digits.length⟩
  else ⟨none, digits.length⟩

def parseSize (value : Bytes) : Option Nat :=
  if value = [] then none
  else
    let conversion := fromChars value
    match conversion.parsed with
    | none => none
    | some parsed => if conversion.ptr ≠ value.length then none else some parsed

/-- A size is read exactly when the whole value is digits and fits `size_t`. -/
theorem parseSize_eq_some_iff (value : Bytes) (n : Nat) :
    parseSize value = some n ↔
      value ≠ [] ∧ (∀ c ∈ value, isDigit c = true) ∧ decimal value = n ∧ n ≤ sizeMax := by
  have hAll : (value.takeWhile isDigit).length = value.length ↔ ∀ c ∈ value, isDigit c = true := by
    rw [← List.takeWhile_eq_self_iff]
    constructor
    · intro h
      exact (List.takeWhile_prefix isDigit).eq_of_length h
    · intro h
      rw [h]
  unfold parseSize fromChars
  by_cases hEmpty : value = []
  · simp [hEmpty]
  by_cases hDigits : ∀ c ∈ value, isDigit c = true
  · have hTake : value.takeWhile isDigit = value := List.takeWhile_eq_self_iff.mpr hDigits
    rw [if_neg hEmpty]
    simp only [hTake, if_neg hEmpty]
    by_cases hFits : decimal value ≤ sizeMax
    · simp only [if_pos hFits, ne_eq, not_true_eq_false, if_false, Option.some.injEq]
      constructor
      · rintro rfl
        exact ⟨hEmpty, hDigits, rfl, hFits⟩
      · exact fun h => h.2.2.1
    · rw [if_neg hFits]
      constructor
      · intro h
        cases h
      · rintro ⟨_, _, rfl, hLe⟩
        exact absurd hLe hFits
  · constructor
    · intro h
      rw [if_neg hEmpty] at h
      have hPtr : (value.takeWhile isDigit).length ≠ value.length := fun he => hDigits (hAll.mp he)
      dsimp only at h
      split_ifs at h
    · exact fun h => absurd h.2.1 hDigits

/-- One `input >> token` on the unread part of an `istringstream`. `none` is a
stream in the failed state; the target string is then left as it was. -/
def extractToken (input : Bytes) : Option (Bytes × Bytes) :=
  match input.dropWhile isSpace with
  | [] => none
  | c :: rest =>
    some ((c :: rest).takeWhile (fun c => !isSpace c), (c :: rest).dropWhile (fun c => !isSpace c))

/-- A token is not empty, and what follows it is empty or starts with the space
that ended it. -/
theorem length_of_extractToken {input token rest : Bytes}
    (h : extractToken input = some (token, rest)) :
    1 ≤ token.length ∧ token.length + rest.length + (input.takeWhile isSpace).length = input.length
      ∧ (rest ≠ [] → 1 ≤ (rest.takeWhile isSpace).length) := by
  have hInput := congrArg List.length (List.takeWhile_append_dropWhile (p := isSpace) (l := input))
  unfold extractToken at h
  cases hSkip : input.dropWhile isSpace with
  | nil =>
    simp only [hSkip] at h
    cases h
  | cons c tail =>
    simp only [hSkip, Option.some.injEq, Prod.mk.injEq] at h
    obtain ⟨rfl, rfl⟩ := h
    have hSplit := congrArg List.length
      (List.takeWhile_append_dropWhile (p := fun c => !isSpace c) (l := c :: tail))
    rw [List.length_append] at hSplit hInput
    rw [hSkip] at hInput
    have hHead : isSpace c = false := by
      have hNe : input.dropWhile isSpace ≠ [] := by simp [hSkip]
      simpa [hSkip] using List.head_dropWhile_not isSpace hNe
    refine ⟨by simp [hHead], by omega, ?_⟩
    intro hRest
    cases hLeft : (c :: tail).dropWhile (fun c => !isSpace c) with
    | nil => exact absurd hLeft hRest
    | cons =>
      have hSpace := List.head_dropWhile_not (fun c => !isSpace c) hRest
      simp only [hLeft, List.head_cons, Bool.not_eq_eq_eq_not, Bool.not_false] at hSpace
      simp [hSpace]

/-- The whitespace-separated words of a line. -/
def words (line : Bytes) : List Bytes :=
  (line.splitOnP isSpace).filter (fun word => !word.isEmpty)

theorem words_space_cons {c : UInt8} (h : isSpace c = true) (line : Bytes) :
    words (c :: line) = words line := by
  simp [words, List.splitOnP_cons_eq_if_modifyHead, h]

theorem words_dropWhile (line : Bytes) : words (line.dropWhile isSpace) = words line := by
  induction line with
  | nil => rfl
  | cons c line ih =>
    by_cases h : isSpace c = true
    · rw [List.dropWhile_cons_of_pos h, ih, words_space_cons h]
    · rw [List.dropWhile_cons_of_neg h]

/-- Repeated extraction reads off exactly the words of the line. -/
theorem words_eq_extractToken (line : Bytes) :
    words line = match extractToken line with
      | none => []
      | some (token, rest) => token :: words rest := by
  rw [← words_dropWhile line]
  unfold extractToken
  cases hSkip : line.dropWhile isSpace with
  | nil => rfl
  | cons c tail =>
    dsimp only
    have hHead : isSpace c = false := by
      have hNe : line.dropWhile isSpace ≠ [] := by simp [hSkip]
      have h := List.head_dropWhile_not isSpace hNe
      simpa [hSkip] using h
    have hToken : ∀ d ∈ (c :: tail).takeWhile (fun c => !isSpace c), isSpace d = false := by
      intro d hd
      simpa using List.mem_takeWhile_imp hd
    have hSplit := List.takeWhile_append_dropWhile (p := fun c => !isSpace c) (l := c :: tail)
    have hNonempty : ((c :: tail).takeWhile (fun c => !isSpace c)).isEmpty = false := by
      simp [hHead]
    cases hRest : (c :: tail).dropWhile (fun c => !isSpace c) with
    | nil =>
      rw [hRest, List.append_nil] at hSplit
      rw [hSplit] at hToken
      rw [hSplit]
      simp [words, List.splitOnP_eq_singleton hToken]
    | cons sep =>
      have hSep : isSpace sep = true := by
        have hNe : (c :: tail).dropWhile (fun c => !isSpace c) ≠ [] := by simp [hRest]
        have h := List.head_dropWhile_not (fun c => !isSpace c) hNe
        simpa [hRest] using h
      rw [hRest] at hSplit
      conv_lhs => rw [← hSplit]
      rw [words_space_cons hSep]
      simp only [words, List.splitOnP_append_cons_of_forall_mem hToken sep hSep]
      rw [List.filter_cons_of_pos (by simp [hNonempty])]

end Tinycoro.Http
