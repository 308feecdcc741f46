import Mathlib

/-!
# Rules of the peer rate limiter (`peerratelimiter.cpp`)

A rule is written `<data>/<window>:<ban>`, each part a number with a unit. Both parsers first
span the characters of the number and then convert this span; the converter of amounts
stops at a point, though the scanner takes points as part of the number, and the product
with the unit is taken in 64 or 32 bits before its range is checked.
-/

namespace DeVault

/-! ### The functions -/

/-- `isdigit`. -/
def isDigitChar (c : Char) : Bool := '0' ≤ c ∧ c ≤ '9'

variable (s : List Char)

/-- `TrimString` with its default pattern. -/
def trimString : List Char :=
  let space := fun c => [' ', '\x0c', '\n', '\r', '\t', '\x0b'].contains c
  (s.dropWhile space).rdropWhile space

/-- `ToLower`, which changes ASCII letters only. -/
def toLowerString : List Char :=
  s.map fun c => if 'A' ≤ c ∧ c ≤ 'Z' then Char.ofNat (c.toNat + 32) else c

/-- The value of decimal digits. -/
def digitsValue : Nat := s.foldl (fun v c => 10 * v + (c.toNat - '0'.toNat)) 0

/-- What `ParseDataString` and `ParseTimeString` differ in: the characters of a number, the largest
value of the converter, the width of the product, the units and the error texts. -/
structure QuantitySyntax where
  inNumber : Char → Bool
  maxValue : Nat
  width : Nat
  units : List (List Char × Nat)
  kind : String
  unitKind : String
  converter : String
  units_pos : ∀ u ∈ units, 0 < u.2

namespace QuantitySyntax

variable (q : QuantitySyntax) (s : List Char)

/-- The number, up to the first character that cannot be in it. -/
def number : List Char := (trimString (toLowerString s)).takeWhile q.inNumber

/-- The digits that the converter reads. -/
def digits : List Char := (q.number s).takeWhile isDigitChar

/-- The factor of the unit behind the number, if there is such a unit. -/
def factor : Option Nat :=
  (q.units.find? (·.1 = (trimString (toLowerString s)).dropWhile q.inNumber)).map (·.2)

/-- The common body of the two parsers. -/
def parse : Except String Nat :=
  if !((trimString (toLowerString s)).head?.any isDigitChar) then
    .error
      ("Invalid " ++ q.kind ++ " string '" ++ String.ofList s ++ "': Must start with a number.")
  else if q.maxValue < digitsValue (q.digits s) then .error q.converter
  else match q.factor s with
    | some factor => .ok (digitsValue (q.digits s) * factor % 2 ^ q.width)
    | none => .error ("Invalid " ++ q.unitKind ++ " unit: " ++
        String.ofList ((trimString (toLowerString s)).dropWhile q.inNumber))

end QuantitySyntax

/-- The syntax of amounts of data, in megabytes. -/
def dataSyntax : QuantitySyntax where
  inNumber c := isDigitChar c || c = '.'
  maxValue := 2 ^ 64 - 1
  width := 64
  -- no unit means megabytes
  units := [([], 1), (['m', 'b'], 1), (['g', 'b'], 1000), (['t', 'b'], 1000000),
    (['p', 'b'], 1000000000)]
  kind := "data amount"
  unitKind := "data"
  converter := "stoull"
  units_pos := by decide

/-- The syntax of durations, in minutes. -/
def timeSyntax : QuantitySyntax where
  inNumber := isDigitChar
  maxValue := 2 ^ 31 - 1
  width := 32
  -- no unit means minutes
  units := [([], 1), (['m'], 1), (['h'], 60), (['d'], 1440), (['w'], 10080)]
  kind := "time duration"
  unitKind := "time"
  converter := "stoi"
  units_pos := by decide

/-- `ParseDataString`: megabytes. -/
def parseDataString : List Char → Except String Nat := dataSyntax.parse

/-- `ParseTimeString`: minutes. -/
def parseTimeString : List Char → Except String Nat := timeSyntax.parse

/-- `PeerRateLimitRule`. -/
structure PeerRateLimitRule where
  m_name : List Char := []
  m_limitMB : Nat := 0
  m_windowMinutes : Nat := 0
  m_banMinutes : Nat := 0
  m_error : String := ""
  deriving DecidableEq, Repr

variable (line : List Char)

namespace PeerRateLimitRule

/-- The part of a trimmed rule before the slash. -/
def limitPart : List Char := (line.takeWhile (· ≠ ':')).takeWhile (· ≠ '/')

/-- The part between the slash and the colon. -/
def windowPart : List Char :=
  ((line.takeWhile (· ≠ ':')).dropWhile (· ≠ '/')).tail

/-- The part behind the colon. -/
def banPart : List Char := (line.dropWhile (· ≠ ':')).tail

/-- The checks at the end of the constructor. -/
def rangeError (r : PeerRateLimitRule) : String :=
  if r.m_limitMB ≤ 0 then "zero data limit"
  else if r.m_limitMB > 1000000000 * 10000 then "data limit greater than 10,000 PB"
  else if r.m_windowMinutes = 0 then "zero time window"
  else if r.m_windowMinutes > 10080 * 10000 then "time window greater than 10,000 weeks"
  else if r.m_banMinutes > 10080 * 10000 then "ban time greater than 10,000 weeks"
  else ""

/-- The constructor. An exception leaves the fields that were set before it. -/
def ofString (rule : List Char) : PeerRateLimitRule :=
  let line := trimString rule
  if line = [] then { m_error := "empty rule" }
  else if ':' ∉ line then { m_error := "missing ':'" }
  else if '/' ∉ line.takeWhile (· ≠ ':') then { m_error := "missing '/'" }
  else
    match parseDataString (limitPart line) with
    | .error e => { m_name := rule, m_error := e }
    | .ok limit =>
      match parseTimeString (windowPart line) with
      | .error e => { m_name := rule, m_limitMB := limit, m_error := e }
      | .ok window =>
        match parseTimeString (banPart line) with
        | .error e =>
          { m_name := rule, m_limitMB := limit, m_windowMinutes := window, m_error := e }
        | .ok ban =>
          let r : PeerRateLimitRule := ⟨rule, limit, window, ban, ""⟩
          { r with m_error := r.rangeError }

/-- `IsValid`. -/
def isValid (r : PeerRateLimitRule) : Bool := r.m_error = "" ∧ r.m_name ≠ []

end PeerRateLimitRule

/-! ### What is written -/

/-- The decimal number that a string of digits and points is, if it has at most one
point. -/
def decimal (number : List Char) : Option ℚ :=
  match number.dropWhile isDigitChar with
  | [] => some (digitsValue (number.takeWhile isDigitChar))
  | _ :: fraction =>
    if fraction.all isDigitChar then
      some (digitsValue (number.takeWhile isDigitChar) +
        digitsValue fraction / 10 ^ fraction.length)
    else none

theorem le_decimal {number : List Char} {x : ℚ} (h : decimal number = some x) :
    (digitsValue (number.takeWhile isDigitChar) : ℚ) ≤ x := by
  unfold decimal at h
  split at h
  · exact (Option.some.inj h).le
  · split at h
    · rw [← Option.some.inj h]
      exact le_add_of_nonneg_right (by positivity)
    · cases h

namespace QuantitySyntax

variable {q : QuantitySyntax} {s : List Char} {v : Nat}

/-- The quantity that is written, as a rational number. -/
def written (q : QuantitySyntax) (s : List Char) : Option ℚ :=
  (decimal (q.number s)).bind fun x => (q.factor s).map fun factor => x * factor

/-- Nothing but zeros stands behind a point of the number, and the number times its unit is
in the range of the product. -/
def Fits (q : QuantitySyntax) (s : List Char) : Prop :=
  decimal (q.number s) = some (digitsValue (q.digits s) : ℚ) ∧
    ∀ factor ∈ q.factor s, digitsValue (q.digits s) * factor < 2 ^ q.width

theorem parse_ok (h : q.parse s = .ok v) :
    ∃ factor, q.factor s = some factor ∧ 0 < factor ∧
      v = digitsValue (q.digits s) * factor % 2 ^ q.width := by
  unfold parse at h
  split at h
  · cases h
  · split at h
    · cases h
    · split at h
      next factor hfactor =>
        obtain ⟨u, hu, rfl⟩ := Option.map_eq_some_iff.mp hfactor
        exact ⟨u.2, hfactor, q.units_pos u (List.mem_of_find?_eq_some hu), (Except.ok.inj h).symm⟩
      · cases h

theorem parse_error_ne (hq : q.converter ≠ "") {e : String} (h : q.parse s = .error e) :
    e ≠ "" := by
  unfold parse at h
  split at h
  · rw [← Except.error.inj h]; simp
  · split at h
    · rw [← Except.error.inj h]; exact hq
    · split at h
      · cases h
      · rw [← Except.error.inj h]; simp

/-- A part is read as it is written if and only if no digit but zero stands
behind a point and the product fits. -/
theorem parse_exact_iff (h : q.parse s = .ok v) : q.written s = some (v : ℚ) ↔ q.Fits s := by
  obtain ⟨factor, hfactor, hpos, rfl⟩ := parse_ok h
  set n := digitsValue (q.digits s)
  constructor
  · intro hwritten
    obtain ⟨x, hx, hmap⟩ := Option.bind_eq_some_iff.mp hwritten
    rw [hfactor] at hmap
    have hprod : x * factor = ((n * factor % 2 ^ q.width : ℕ) : ℚ) := Option.some.inj hmap
    have hle : (n : ℚ) ≤ x := le_decimal hx
    -- the reduced product is at most the one of the whole part, so there is nothing behind it
    have hmod : ((n * factor % 2 ^ q.width : ℕ) : ℚ) ≤ n * factor := by
      exact_mod_cast Nat.mod_le _ _
    have hx' : x = n := le_antisymm
      (le_of_mul_le_mul_right (hprod.trans_le hmod) (by exact_mod_cast hpos)) hle
    refine ⟨hx' ▸ hx, fun f hf => ?_⟩
    obtain rfl : factor = f := Option.some.inj (hfactor.symm.trans hf)
    rw [hx'] at hprod
    have hnat : n * factor = n * factor % 2 ^ q.width := by exact_mod_cast hprod
    rw [hnat]
    exact Nat.mod_lt _ (by positivity)
  · rintro ⟨hwhole, hlt⟩
    rw [written, hwhole, hfactor, Nat.mod_eq_of_lt (hlt factor hfactor)]
    simp

end QuantitySyntax

namespace PeerRateLimitRule

open QuantitySyntax

variable {rule : List Char}

/-- A rule means what is written: a valid rule has the numbers of its text, and with a number beyond
the documented maxima there is no valid rule. -/
def Exact (rule : List Char) : Prop :=
  let limit := dataSyntax.written (limitPart (trimString rule))
  let window := timeSyntax.written (windowPart (trimString rule))
  let ban := timeSyntax.written (banPart (trimString rule))
  let r := ofString rule
  (r.isValid = true → limit = some (r.m_limitMB : ℚ) ∧ window = some (r.m_windowMinutes : ℚ) ∧
      ban = some (r.m_banMinutes : ℚ)) ∧
    ((∃ x ∈ limit, 1000000000 * 10000 < x) ∨ (∃ x ∈ window, 10080 * 10000 < x) ∨
      (∃ x ∈ ban, 10080 * 10000 < x) → r.isValid = false)

/-- A rule without a range error is within the documented maxima. -/
theorem le_of_rangeError {r : PeerRateLimitRule} (h : r.rangeError = "") :
    r.m_limitMB ≤ 1000000000 * 10000 ∧ r.m_windowMinutes ≤ 10080 * 10000 ∧
      r.m_banMinutes ≤ 10080 * 10000 := by
  unfold rangeError at h
  split_ifs at h
  all_goals first
    | exact absurd h (by decide)
    | exact ⟨by omega, by omega, by omega⟩

theorem of_isValid {r : PeerRateLimitRule} (hr : ofString rule = r) (h : r.isValid = true) :
    parseDataString (limitPart (trimString rule)) = .ok r.m_limitMB ∧
      parseTimeString (windowPart (trimString rule)) = .ok r.m_windowMinutes ∧
      parseTimeString (banPart (trimString rule)) = .ok r.m_banMinutes ∧ r.rangeError = "" := by
  have herror : r.m_error = "" := (of_decide_eq_true h).1
  have herror_of : ∀ {r' : PeerRateLimitRule}, r' = r → r'.m_error = "" := fun h => h ▸ herror
  unfold ofString at hr
  dsimp only at hr
  iterate 3
    split at hr
    · exact absurd (herror_of hr) (by decide)
  -- each exception leaves a text
  split at hr
  next e hlimit => exact absurd (herror_of hr) (parse_error_ne (by decide) hlimit)
  next limit hlimit =>
    split at hr
    next e hwindow => exact absurd (herror_of hr) (parse_error_ne (by decide) hwindow)
    next window hwindow =>
      split at hr
      next e hban => exact absurd (herror_of hr) (parse_error_ne (by decide) hban)
      next ban hban =>
        subst hr
        exact ⟨hlimit, hwindow, hban, herror⟩

end PeerRateLimitRule

open PeerRateLimitRule QuantitySyntax

/-- **When a rule means what is written.** Exactly when it is refused, or the numbers of its three
parts are whole and fit together with their units. -/
theorem peerRateLimitRule_exact_iff (rule : List Char) :
    Exact rule ↔ ((ofString rule).isValid = true →
      dataSyntax.Fits (limitPart (trimString rule)) ∧
        timeSyntax.Fits (windowPart (trimString rule)) ∧
        timeSyntax.Fits (banPart (trimString rule))) := by
  by_cases hvalid : (ofString rule).isValid = true
  swap
  · simp [Exact, hvalid]
  obtain ⟨hlimit, hwindow, hban, hrange⟩ := of_isValid rfl hvalid
  obtain ⟨hle, hwle, hble⟩ := le_of_rangeError hrange
  simp only [Exact, hvalid, true_imp_iff, Bool.true_eq_false, imp_false]
  rw [← parse_exact_iff hlimit, ← parse_exact_iff hwindow, ← parse_exact_iff hban]
  refine and_iff_left_of_imp ?_
  -- read as written, the numbers have passed the checks
  rintro ⟨hl, hw, hb⟩
  simp only [hl, hw, hb, Option.mem_some_iff, exists_eq_left']
  rintro (hx | hx | hx)
  · exact absurd hle (not_le.mpr (by exact_mod_cast hx))
  · exact absurd hwle (not_le.mpr (by exact_mod_cast hx))
  · exact absurd hble (not_le.mpr (by exact_mod_cast hx))

/-- One and a half gigabytes. -/
def halfRule : List Char := "1.5GB/1h:1d".toList

/-- More petabytes than 64 bits have room for. -/
def hugeRule : List Char := "18446744074PB/1h:1d".toList

/-- Both rules are valid; the first is read as one gigabyte, the second as less than one
petabyte. -/
theorem peerRateLimitRule_inexact :
    (ofString halfRule = ⟨halfRule, 1000, 60, 1440, ""⟩ ∧
      dataSyntax.written (limitPart (trimString halfRule)) = some 1500) ∧
    (ofString hugeRule = ⟨hugeRule, 290448384, 60, 1440, ""⟩ ∧
      dataSyntax.written (limitPart (trimString hugeRule)) = some (18446744074 * 1000000000)) := by
  decide +kernel

end DeVault
