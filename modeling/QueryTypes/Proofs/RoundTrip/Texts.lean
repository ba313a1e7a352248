import QueryTypes.Json.Printer
import QueryTypes.Json.Reader
import QueryTypes.Proofs.Lists
import QueryTypes.Proofs.Numeral

/-!
# Texts read back

A document that is written in one line or over several lines is read back from its text, as long as
its containers nest at most 127 deep, and its text is refused otherwise (`Json.read?_render`,
`Json.read?_pretty`). What is asked of its numbers (`Json.KeepsNumbers`) is that integers have 64
bits and that each double is read back from its own text. The latter is no matter of course: a
double is read in two steps that both round, and some doubles come back as a neighbour
(`Json.exists_not_keepsNumbers`).

The proof follows the text through the reader. A text is read as a value wherever one may stand
(`Reader.IsText`) if its parts are, so each kind of value has one lemma, and the two ways of writing
differ in the blanks between the parts only.
-/

set_option autoImplicit false

namespace QueryTypes.Json

/-! ## Nesting -/

mutual

/-- The number of containers on the longest way into a document. -/
def nesting : Json → Nat
  | .arr elems => 1 + nestingList elems
  | .obj members => 1 + nestingMembers members
  | _ => 0

/-- The greatest nesting of elements. -/
def nestingList : List Json → Nat
  | [] => 0
  | j :: rest => max j.nesting (nestingList rest)

/-- The greatest nesting of members. -/
def nestingMembers : List (String × Json) → Nat
  | [] => 0
  | (_, j) :: rest => max j.nesting (nestingMembers rest)

end

namespace Reader

/-! ## Texts of values -/

/-- What follows is not more of a number. -/
def Detached (rest : List Char) : Prop :=
  ∀ c ∈ rest.head?, c.isDigit = false ∧ c ≠ '.' ∧ c ≠ 'e' ∧ c ≠ 'E'

/-- The text is read as the value wherever a value may stand, unless a container in it is one too
many. -/
def IsText (j : Json) (cs : List Char) : Prop :=
  ∀ (closable : Bool) (stack : List Frame) (rest : List Char),
    stack.length < nestingBound → Detached rest →
    run ⟨.value closable, stack⟩ (cs ++ rest) =
      if stack.length + j.nesting < nestingBound then run (finish j stack) rest else none

theorem detached_nil : Detached [] := fun _ hc => absurd hc (by simp)

/-- Blanks are no part of a number, nor is what may come after a value. -/
theorem detached_blanks {blanks : List Char} (hblanks : ∀ c ∈ blanks, isSpace c = true) {c : Char}
    (hc : c = ',' ∨ c = ']' ∨ c = '\x7d') (rest : List Char) : Detached (blanks ++ c :: rest) := by
  cases blanks with
  | nil =>
    rintro _ ⟨⟩
    rcases hc with rfl | rfl | rfl <;> decide
  | cons b blanks =>
    have hb := hblanks b List.mem_cons_self
    simp only [isSpace, Bool.or_eq_true, beq_iff_eq] at hb
    rintro _ ⟨⟩
    rcases hb with ((rfl | rfl) | rfl) | rfl <;> decide

/-- A value without containers in it is read at any depth. -/
theorem isText_of_nesting_eq_zero {j : Json} {cs : List Char} (hnesting : j.nesting = 0)
    (h : ∀ closable stack rest, Detached rest →
      run ⟨.value closable, stack⟩ (cs ++ rest) = run (finish j stack) rest) : IsText j cs := by
  intro closable stack rest hstack hrest
  rw [hnesting, Nat.add_zero, if_pos hstack]
  exact h closable stack rest hrest

/-! ## Blanks -/

/-- Between tokens blanks are skipped. -/
theorem run_blanks {mode : Mode} {stack : List Frame}
    (hstep : ∀ c rest, isSpace c = true → run ⟨mode, stack⟩ (c :: rest) = run ⟨mode, stack⟩ rest)
    {blanks : List Char} (h : ∀ c ∈ blanks, isSpace c = true) (rest : List Char) :
    run ⟨mode, stack⟩ (blanks ++ rest) = run ⟨mode, stack⟩ rest := by
  induction blanks with
  | nil => rfl
  | cons c blanks ih =>
    obtain ⟨hc, hblanks⟩ := List.forall_mem_cons.1 h
    rw [List.cons_append, hstep c _ hc, ih hblanks]

section Blanks

variable {c : Char} (h : isSpace c = true) (stack : List Frame) (rest : List Char)
include h

theorem run_value_space (closable : Bool) :
    run ⟨.value closable, stack⟩ (c :: rest) = run ⟨.value closable, stack⟩ rest := by
  have hstep : stepValue closable stack c = some ⟨.value closable, stack⟩ := by
    unfold stepValue
    exact if_pos h
  show (stepValue closable stack c).bind (fun s => run s rest) = _
  rw [hstep]
  rfl

theorem run_name_space (closable : Bool) (members : List (String × Json)) :
    run ⟨.name closable members, stack⟩ (c :: rest) = run ⟨.name closable members, stack⟩ rest := by
  show (if isSpace c then _ else _ : Option State).bind (fun s => run s rest) = _
  rw [if_pos h]
  rfl

theorem run_next_space :
    run ⟨.next, stack⟩ (c :: rest) = run ⟨.next, stack⟩ rest := by
  show (if isSpace c then _ else _ : Option State).bind (fun s => run s rest) = _
  rw [if_pos h]
  rfl

end Blanks

theorem IsText.blanks {j : Json} {cs : List Char} (h : IsText j cs) {blanks : List Char}
    (hblanks : ∀ c ∈ blanks, isSpace c = true) : IsText j (blanks ++ cs) := by
  intro closable stack rest hstack hrest
  rw [List.append_assoc, run_blanks
    (fun c rest hc => run_value_space hc stack rest closable) hblanks]
  exact h closable stack rest hstack hrest

/-! ## Strings -/

theorem hexDigit?_digitChar {d : Nat} (h : d < 16) : hexDigit? (Nat.digitChar d) = some d := by
  have hall : ∀ d : Fin 16, hexDigit? (Nat.digitChar d) = some d.1 := by decide
  exact hall ⟨d, h⟩

section Strings

variable (members : Option (List (String × Json))) (text : List Char) (stack : List Frame)
  (rest : List Char)

/-- A control character is read back from its code. -/
theorem run_unit {c : Char} (h : c.toNat < 0x20) :
    run ⟨.string members text .plain, stack⟩ (['\\', 'u', '0', '0'] ++ hexPair c.toNat ++ rest) =
      run ⟨.string members (c :: text) .plain, stack⟩ rest := by
  -- the digits of the code, high before low
  have hhigh : stepEscape text (Nat.digitChar (c.toNat / 16)) (.unit 2 0 none) =
      some (text, .unit 1 (c.toNat / 16) none) := by
    rw [stepEscape, hexDigit?_digitChar (by omega)]
    simp
  have hlow : stepEscape text (Nat.digitChar (c.toNat % 16)) (.unit 1 (c.toNat / 16) none) =
      some (c :: text, .plain) := by
    have hcode : c.toNat / 16 * 16 + c.toNat % 16 = c.toNat := Nat.div_add_mod' _ _
    rw [stepEscape, hexDigit?_digitChar (by omega)]
    show closeUnit text (c.toNat / 16 * 16 + c.toNat % 16) none = _
    rw [hcode, closeUnit, if_neg (by simp; omega), if_neg (by simp; omega), Char.ofNat_toNat]
  show ((stepEscape text (Nat.digitChar (c.toNat / 16)) (.unit 2 0 none)).map _).bind _ = _
  rw [hhigh]
  show ((stepEscape text (Nat.digitChar (c.toNat % 16))
    (.unit 1 (c.toNat / 16) none)).map _).bind _ = _
  rw [hlow]
  rfl

/-- A character is read back from what is written for it. -/
theorem run_escapeChar (c : Char) :
    run ⟨.string members text .plain, stack⟩ (escapeChar c ++ rest) =
      run ⟨.string members (c :: text) .plain, stack⟩ rest := by
  unfold escapeChar
  simp only [beq_iff_eq]
  split_ifs with hquote hbackslash hnewline hreturn htab hback hfeed hcontrol
  · subst hquote
    rfl
  · subst hbackslash
    rfl
  · subst hnewline
    rfl
  · subst hreturn
    rfl
  · subst htab
    rfl
  · rw [← c.ofNat_toNat, hback]
    rfl
  · rw [← c.ofNat_toNat, hfeed]
    rfl
  · exact run_unit members text stack rest hcontrol
  · have hstep : step ⟨.string members text .plain, stack⟩ c =
        some ⟨.string members (c :: text) .plain, stack⟩ := by
      simp [step, stepEscape, hquote, hbackslash, hcontrol]
    show (step ⟨.string members text .plain, stack⟩ c).bind _ = _
    rw [hstep]
    rfl

theorem run_escaped (s : List Char) :
    run ⟨.string members text .plain, stack⟩ (s.flatMap escapeChar ++ rest) =
      run ⟨.string members (s.reverse ++ text) .plain, stack⟩ rest := by
  induction s generalizing text with
  | nil => rfl
  | cons c s ih =>
    rw [List.flatMap_cons, List.append_assoc, run_escapeChar, ih, List.reverse_cons,
      List.append_assoc]
    rfl

end Strings

theorem toList_quote (s : String) :
    (quote s).toList = '"' :: (s.toList.flatMap escapeChar ++ ['"']) := by
  rw [quote, String.toList_ofList]
  rfl

/-- A quoted text is a value. -/
theorem run_value_quote (s : String) (closable : Bool) (stack : List Frame) (rest : List Char) :
    run ⟨.value closable, stack⟩ ((quote s).toList ++ rest) = run (finish (.str s) stack) rest := by
  rw [toList_quote]
  show run ⟨.string none [] .plain, stack⟩ (s.toList.flatMap escapeChar ++ ['"'] ++ rest) = _
  rw [List.append_assoc, run_escaped, List.append_nil]
  show run (finish (.str (String.ofList s.toList.reverse.reverse)) stack) rest = _
  rw [List.reverse_reverse, String.ofList_toList]

/-- A quoted text is the name of a member. -/
theorem run_name_quote (s : String) (closable : Bool) (members : List (String × Json))
    (stack : List Frame) (rest : List Char) :
    run ⟨.name closable members, stack⟩ ((quote s).toList ++ rest) =
      run ⟨.colon members s, stack⟩ rest := by
  rw [toList_quote]
  show run ⟨.string (some members) [] .plain, stack⟩
    (s.toList.flatMap escapeChar ++ ['"'] ++ rest) = _
  rw [List.append_assoc, run_escaped, List.append_nil]
  show run ⟨.colon members (String.ofList s.toList.reverse.reverse), stack⟩ rest = _
  rw [List.reverse_reverse, String.ofList_toList]

/-! ## Numbers -/

theorem ne_of_isDigit {c d : Char} (hc : c.isDigit = true) (hd : d.isDigit = false) : c ≠ d := by
  rintro rfl
  rw [hc] at hd
  cases hd

theorem Token.extend_eq_none {t : Token} (ht : t.complete = true) {c : Char}
    (hc : c.isDigit = false ∧ c ≠ '.' ∧ c ≠ 'e' ∧ c ≠ 'E') : t.extend c = none := by
  obtain ⟨hdigit, hpoint, he, hE⟩ := hc
  unfold Token.complete at ht
  unfold Token.extend
  cases hstage : t.stage <;> simp_all

theorem settleNumber_of_ends {t : Token} {coming : Option Char} {v : Json}
    (hextend : coming.bind t.extend = none) (hends : t.endsBefore coming = true)
    (hvalue : t.value = some v) (stack : List Frame) :
    settleNumber ⟨.number t, stack⟩ coming = some (finish v stack) := by
  simp [settleNumber, hextend, hends, hvalue]

theorem settleNumber_finish (v : Json) (stack : List Frame) (coming : Option Char) :
    settleNumber (finish v stack) coming = some (finish v stack) := by
  rcases stack with _ | ⟨_ | _, _⟩ <;> rfl

/-- What a number is settled to goes on in its place. -/
theorem run_of_settleNumber {s : State} {v : Json} {stack : List Frame} {rest : List Char}
    (h : settleNumber s rest.head? = some (finish v stack)) :
    run s rest = run (finish v stack) rest := by
  cases rest with
  | nil => rw [run, run, settleNumber_finish, ← h, List.head?_nil]
  | cons c rest => rw [run, run, settleNumber_finish, ← h, List.head?_cons]

theorem run_number_nil (t : Token) :
    run ⟨.number t, []⟩ [] = if t.endsBefore none then t.value.map fun v => (v, []) else none := by
  show (if t.endsBefore none then t.value.map fun v => finish v [] else none).bind _ = _
  split
  · cases t.value <;> rfl
  · rfl

theorem run_number_cons {t t' : Token} {c : Char} (h : t.extend c = some t') (stack : List Frame)
    (cs : List Char) : run ⟨.number t, stack⟩ (c :: cs) = run ⟨.number t', stack⟩ cs := by
  simp [run, settleNumber, step, h]

/-- A number that is read to the end of its text is read as the same number where other text
follows. -/
theorem run_number {t : Token} {cs : List Char} {v : Json}
    (h : run ⟨.number t, []⟩ cs = some (v, [])) (stack : List Frame) {rest : List Char}
    (hrest : Detached rest) :
    run ⟨.number t, stack⟩ (cs ++ rest) = run (finish v stack) rest := by
  induction cs generalizing t with
  | nil =>
    rw [run_number_nil] at h
    obtain ⟨hends, h⟩ := Option.ite_none_right_eq_some.1 h
    have hvalue : t.value = some v := by simpa using h
    have hcomplete : t.complete = true := by
      rw [Token.endsBefore, Bool.and_eq_true] at hends
      exact hends.1
    rw [List.nil_append]
    apply run_of_settleNumber
    cases rest with
    | nil => exact settleNumber_of_ends rfl hends hvalue stack
    | cons c rest =>
      have hc := hrest c rfl
      have hextend : (some c).bind t.extend = none := Token.extend_eq_none hcomplete hc
      refine settleNumber_of_ends hextend ?_ hvalue stack
      simp [Token.endsBefore, hcomplete, hc.1]
  | cons c cs ih =>
    cases hextend : t.extend c with
    | some t' =>
      rw [run_number_cons hextend] at h
      rw [List.cons_append, run_number_cons hextend]
      exact ih h
    | none =>
      -- the number would end before the character
      rw [run] at h
      obtain ⟨s, hs, h⟩ := Option.bind_eq_some_iff.1 h
      simp only [settleNumber, Option.bind_some, hextend] at hs
      obtain ⟨-, hs⟩ := Option.ite_none_right_eq_some.1 hs
      obtain ⟨w, -, rfl⟩ := Option.map_eq_some_iff.1 hs
      cases h

theorem run_digits {t : Token} (hstage : t.stage = .whole) {cs : List Char}
    (hcs : ∀ c ∈ cs, c.isDigit = true) :
    run ⟨.number t, []⟩ cs =
      (Token.value { t with whole := cs.reverse ++ t.whole }).map fun v => (v, []) := by
  induction cs generalizing t with
  | nil =>
    rw [run_number_nil, if_pos (by simp [Token.endsBefore, Token.complete, hstage])]
    rfl
  | cons c cs ih =>
    obtain ⟨hc, hcs⟩ := List.forall_mem_cons.1 hcs
    have hextend : t.extend c = some { t with whole := c :: t.whole } := by
      have hpoint : c ≠ '.' := ne_of_isDigit hc rfl
      have he : c ≠ 'e' := ne_of_isDigit hc rfl
      have hE : c ≠ 'E' := ne_of_isDigit hc rfl
      simp [Token.extend, hstage, hpoint, he, hE, hc]
    have hrest := ih (t := { t with whole := c :: t.whole }) hstage hcs
    rw [run_number_cons hextend, hrest, List.reverse_cons, List.append_assoc]
    rfl

theorem stepValue_digit {c : Char} (h : c.isDigit = true) (closable : Bool) (stack : List Frame) :
    stepValue closable stack c =
      some ⟨.number { stage := if c = '0' then .zero else .whole, whole := [c] }, stack⟩ := by
  have hspace : isSpace c = false := by
    have hblank : c ≠ ' ' := ne_of_isDigit h rfl
    have hline : c ≠ '\n' := ne_of_isDigit h rfl
    have htab : c ≠ '\t' := ne_of_isDigit h rfl
    have hreturn : c ≠ '\r' := ne_of_isDigit h rfl
    simp [isSpace, hblank, hline, htab, hreturn]
  have harray : c ≠ '[' := ne_of_isDigit h rfl
  have hobject : c ≠ '\x7b' := ne_of_isDigit h rfl
  have hquote : c ≠ '"' := ne_of_isDigit h rfl
  have hminus : c ≠ '-' := ne_of_isDigit h rfl
  by_cases hzero : c = '0'
  · subst hzero
    rfl
  · simp [stepValue, hspace, harray, hobject, hquote, hminus, hzero, h]

theorem readWhole_toDigits (negative : Bool) (n : Nat) :
    readWhole negative (Nat.toDigits 10 n) =
      if negative then
        if 0 < n ∧ n ≤ 0x8000000000000000 then some (.int (-(n : Int)))
        else (readScaled true (Nat.toDigits 10 n) [] 0).map .float
      else if n < Numeral.natBound then some (.int n)
      else (readScaled false (Nat.toDigits 10 n) [] 0).map .float := by
  rw [readWhole, Numeral.digitsValue_eq, Nat.ofDigitChars_ten_toDigits]

/-- The digits of an integer other than zero, after its sign. -/
theorem run_toDigits {negative : Bool} {n : Nat} {c : Char} {cs : List Char} {v : Json}
    (hdigits : Nat.toDigits 10 n = c :: cs)
    (hvalue : readWhole negative (Nat.toDigits 10 n) = some v) (stack : List Frame)
    {rest : List Char} (hrest : Detached rest) :
    run ⟨.number { stage := .whole, negative := negative, whole := [c] }, stack⟩ (cs ++ rest) =
      run (finish v stack) rest := by
  refine run_number ?_ stack hrest
  rw [run_digits rfl fun c hc =>
    Numeral.isDigit_of_mem_toDigits (hdigits ▸ List.mem_cons_of_mem _ hc)]
  have hwhole : Token.value { stage := .whole, negative := negative, whole := cs.reverse ++ [c] } =
      readWhole negative (Nat.toDigits 10 n) := by
    show readWhole negative (cs.reverse ++ [c]).reverse = _
    rw [List.reverse_append, List.reverse_reverse, hdigits]
    rfl
  exact hwhole ▸ hvalue ▸ rfl

theorem isText_int {n : Int} (h : Numeral.fitsInt64 n = true ∨ 0 ≤ n ∧ n < Numeral.natBound) :
    IsText (.int n) (toString n).toList := by
  have hbounds : -0x8000000000000000 ≤ n ∧ n < Numeral.natBound := by
    rw [Numeral.fitsInt64, Bool.and_eq_true, decide_eq_true_eq, decide_eq_true_eq] at h
    rw [Numeral.natBound] at h ⊢
    omega
  refine isText_of_nesting_eq_zero rfl fun closable stack rest hrest => ?_
  cases n with
  | ofNat m =>
    rw [Numeral.toList_toString_ofNat]
    cases m with
    | zero =>
      have hzero : run ⟨.number { stage := .zero, whole := ['0'] }, []⟩ [] =
          some (.int 0, []) := rfl
      exact run_number hzero stack hrest
    | succ m =>
      obtain ⟨c, cs, hdigits, hdigit, hc⟩ := Numeral.exists_toDigits_eq_cons m.succ_pos
      have hvalue : readWhole false (Nat.toDigits 10 (m + 1)) = some (.int (m + 1 : Nat)) := by
        rw [readWhole_toDigits, if_neg Bool.false_ne_true, if_pos (Int.ofNat_lt.1 hbounds.2)]
      rw [hdigits]
      show (stepValue closable stack c).bind _ = _
      rw [stepValue_digit hdigit, if_neg hc]
      exact run_toDigits hdigits hvalue stack hrest
  | negSucc m =>
    obtain ⟨c, cs, hdigits, hdigit, hc⟩ := Numeral.exists_toDigits_eq_cons m.succ_pos
    have hvalue : readWhole true (Nat.toDigits 10 (m + 1)) = some (.int (.negSucc m)) := by
      rw [readWhole_toDigits, if_pos rfl, if_pos ⟨m.succ_pos, by omega⟩]
      rfl
    have hextend : Token.extend { stage := .minus, negative := true } c =
        some { stage := .whole, negative := true, whole := [c] } := by
      simp [Token.extend, hc, hdigit]
    rw [Numeral.toList_toString_negSucc, hdigits]
    show run ⟨.number { stage := .minus, negative := true }, stack⟩ (c :: (cs ++ rest)) = _
    rw [run_number_cons hextend]
    exact run_toDigits hdigits hvalue stack hrest

/-- The text of digits with a point begins with a digit. -/
theorem exists_layout_eq_cons {digits : List Char} (hne : digits ≠ [])
    (hdigits : ∀ c ∈ digits, c.isDigit = true) (point : Int) :
    ∃ c cs, (Numeral.layout digits point).toList = c :: cs ∧ c.isDigit = true := by
  obtain ⟨c, cs, rfl⟩ := List.exists_cons_of_ne_nil hne
  have hc : c.isDigit = true := hdigits c List.mem_cons_self
  unfold Numeral.layout
  dsimp only
  split
  · exact ⟨c, _, by rw [String.toList_append, String.toList_ofList]; rfl, hc⟩
  · split
    · next hpoint =>
      obtain ⟨k, hk⟩ : ∃ k, point.toNat = k + 1 := ⟨point.toNat - 1, by omega⟩
      rw [String.toList_ofList, hk]
      exact ⟨c, _, rfl, hc⟩
    · split
      · exact ⟨'0', _, by rw [String.toList_append]; rfl, rfl⟩
      · cases cs with
        | nil => exact ⟨c, _, by rw [String.toList_append, String.toList_ofList]; rfl, hc⟩
        | cons d cs => exact ⟨c, _, by rw [String.toList_append, String.toList_ofList]; rfl, hc⟩

/-- The text of a double begins with a minus or a digit. -/
theorem exists_writeDouble_eq_cons (x : Double) :
    ∃ c cs, (Numeral.writeDouble x).toList = c :: cs ∧ (c = '-' ∨ c.isDigit = true) := by
  obtain ⟨body, heq, c, cs, hbody, hc⟩ : ∃ body : String,
      Numeral.writeDouble x = (if x.isNegative then "-" else "") ++ body ∧
        ∃ c cs, body.toList = c :: cs ∧ c.isDigit = true := by
    unfold Numeral.writeDouble
    dsimp only
    split
    · exact ⟨"0.0", rfl, '0', ['.', '0'], rfl, rfl⟩
    · refine ⟨_, rfl, exists_layout_eq_cons Nat.toDigits_ne_nil ?_ _⟩
      exact fun c hc => Numeral.isDigit_of_mem_toDigits hc
  rw [heq, String.toList_append, hbody]
  split
  · exact ⟨'-', c :: cs, rfl, .inl rfl⟩
  · exact ⟨c, cs, rfl, .inr hc⟩

/-- A minus or a digit begins a number, wherever it stands. -/
theorem exists_stepValue_eq_number {c : Char} (h : c = '-' ∨ c.isDigit = true) :
    ∃ t, ∀ closable stack, stepValue closable stack c = some ⟨.number t, stack⟩ := by
  rcases h with rfl | hdigit
  · exact ⟨_, fun _ _ => rfl⟩
  · exact ⟨_, stepValue_digit hdigit⟩

/-- A double is read back from its text wherever a value may stand, if it is where it stands
alone. -/
theorem isText_float {x : Double} (h : readFirst? (writeFloat x) = some (.float x, [])) :
    IsText (.float x) (writeFloat x).toList := by
  refine isText_of_nesting_eq_zero rfl fun closable stack rest hrest => ?_
  rw [readFirst?] at h
  rw [writeFloat] at h ⊢
  cases hfinite : x.isFinite with
  | false =>
    -- the text is null, which is not read as a double
    have hnull : run ⟨.value false, []⟩ "null".toList = some (.null, []) := rfl
    rw [hfinite, if_neg Bool.false_ne_true, hnull] at h
    cases h
  | true =>
    rw [hfinite, if_pos rfl] at h
    rw [if_pos rfl]
    obtain ⟨c, cs, htext, hc⟩ := exists_writeDouble_eq_cons x
    obtain ⟨t, ht⟩ := exists_stepValue_eq_number hc
    rw [htext] at h ⊢
    have hnumber : run ⟨.number t, []⟩ cs = some (.float x, []) := by
      rw [← h]
      show _ = (stepValue false [] c).bind _
      rw [ht]
      rfl
    show (stepValue closable stack c).bind _ = _
    rw [ht]
    exact run_number hnumber stack hrest

/-! ## Containers -/

/-- A container is opened, unless it is one too many. -/
theorem bind_openContainer (mode : Mode) (stack : List Frame) (frame : Option Frame)
    (f : State → Option (Json × List Char)) :
    (openContainer mode stack frame).bind f =
      if stack.length + 1 < nestingBound then f ⟨mode, frame.toList ++ stack⟩ else none := by
  cases frame with
  | none =>
    rw [openContainer]
    split <;> rfl
  | some frame =>
    rw [openContainer]
    split <;> rfl

/-- Two bounds on the nesting hold together if the greater does. -/
theorem ite_ite_nesting {α : Type} (base a b : Nat) (x : Option α) :
    (if base + a < nestingBound then if base + b < nestingBound then x else none else none) =
      if base + max a b < nestingBound then x else none := by
  split_ifs <;> first | rfl | omega

theorem IsText.run_inside {j : Json} {cs : List Char} (h : IsText j cs) {stack : List Frame}
    (hstack : stack.length + 1 < nestingBound) (frame : Frame) (closable : Bool) {rest : List Char}
    (hrest : Detached rest) :
    run ⟨.value closable, frame :: stack⟩ (cs ++ rest) =
      if stack.length + 1 + j.nesting < nestingBound then run (finish j (frame :: stack)) rest
      else none :=
  h closable (frame :: stack) rest hstack hrest

/-- The items of a container with commas between them, up to its end. Given are the state that waits
for an item and the state after one, both with the items read so far, latest first. -/
theorem run_items {α : Type} (wait : Bool → List α → State) (after : List α → State)
    (whole : List α → State) {text : α → List Char} {nest : α → Nat} {total : List α → Nat}
    {base : Nat} {close rest : List Char} {items : List α}
    (hitem : ∀ a ∈ items, ∀ closable acc rest, Detached rest →
      run (wait closable acc) (text a ++ rest) =
        if base + nest a < nestingBound then run (after (a :: acc)) rest else none)
    (hcomma : ∀ acc cs, run (after acc) (',' :: cs) = run (wait false acc) cs)
    (hclose : ∀ acc, run (after acc) (close ++ rest) = run (whole acc.reverse) rest)
    (hdetached : Detached (close ++ rest))
    (hnil : total [] = 0) (hcons : ∀ a as, total (a :: as) = max (nest a) (total as))
    (hne : items ≠ []) (closable : Bool) (acc : List α) :
    run (wait closable acc) ([','].intercalate (items.map text) ++ (close ++ rest)) =
      if base + total items < nestingBound then run (whole (acc.reverse ++ items)) rest
      else none := by
  induction items generalizing closable acc with
  | nil => exact absurd rfl hne
  | cons a more ih =>
    obtain ⟨ha, hmore⟩ := List.forall_mem_cons.1 hitem
    cases more with
    | nil =>
      rw [List.map_singleton, List.intercalate_singleton, ha closable acc _ hdetached, hclose,
        hcons, hnil, Nat.max_zero, List.reverse_cons]
    | cons b more =>
      -- a comma follows, and the rest is read with the first item on top
      have hdetached' (cs : List Char) : Detached (',' :: cs) :=
        detached_blanks (fun _ hc => absurd hc List.not_mem_nil) (.inl rfl) cs
      have hmore := ih hmore (List.cons_ne_nil _ _) false (a :: acc)
      rw [List.reverse_cons, List.append_assoc, List.singleton_append] at hmore
      rw [hcons, ← ite_ite_nesting, ← hmore, ← hcomma, List.map_cons, List.map_cons,
        List.intercalate_cons_cons, List.append_assoc, List.append_assoc]
      exact ha closable acc _ (hdetached' _)

section Containers

variable {tail : List Char} (htail : ∀ c ∈ tail, isSpace c = true)
include htail

/-- An array is read if its elements are. -/
theorem isText_arr {write : Json → List Char} {elems : List Json}
    (h : ∀ j ∈ elems, IsText j (write j)) :
    IsText (.arr elems) ('[' :: ([','].intercalate (elems.map write) ++ (tail ++ [']']))) := by
  intro closable stack rest _ _
  have hopen (cs : List Char) : run ⟨.value closable, stack⟩ ('[' :: cs) =
      if stack.length + 1 < nestingBound then run ⟨.value true, .arr [] :: stack⟩ cs else none :=
    bind_openContainer (.value true) stack (some (.arr [])) _
  rw [List.cons_append, hopen, List.append_assoc, nesting, ← Nat.add_assoc]
  by_cases hstack : stack.length + 1 < nestingBound
  · rw [if_pos hstack]
    cases elems with
    | nil =>
      rw [List.map_nil, List.intercalate_nil, List.nil_append, List.append_assoc,
        run_blanks (fun c rest hc => run_value_space hc _ rest true) htail, nestingList,
        if_pos hstack]
      rfl
    | cons j more =>
      refine run_items (fun closable acc => ⟨.value closable, .arr acc :: stack⟩)
        (fun acc => ⟨.next, .arr acc :: stack⟩) (fun elems => finish (.arr elems) stack)
        (fun j hj closable acc rest => (h j hj).run_inside hstack (.arr acc) closable)
        (fun _ _ => rfl)
        (fun acc => ?_) ?_ rfl (fun _ _ => rfl) (List.cons_ne_nil _ _) true []
      · rw [List.append_assoc, run_blanks (fun c rest hc => run_next_space hc _ rest) htail]
        rfl
      · rw [List.append_assoc]
        exact detached_blanks htail (.inr (.inl rfl)) rest
  · rw [if_neg hstack, if_neg (by omega)]

/-- An object is read if the values of its members are. -/
theorem isText_obj {lead : List Char} (hlead : ∀ c ∈ lead, isSpace c = true)
    {write : String × Json → List Char} {members : List (String × Json)}
    (h : ∀ m ∈ members, IsText m.2 (write m)) :
    IsText (.obj members) ('\x7b' :: ([','].intercalate
      (members.map fun m => lead ++ ((quote m.1).toList ++ ':' :: write m)) ++
      (tail ++ ['\x7d']))) := by
  intro closable stack rest _ _
  have hopen (cs : List Char) : run ⟨.value closable, stack⟩ ('\x7b' :: cs) =
      if stack.length + 1 < nestingBound then run ⟨.name true [], stack⟩ cs else none :=
    bind_openContainer (.name true []) stack none _
  have hname (m : String × Json) (closable : Bool) (acc : List (String × Json)) (cs : List Char) :
      run ⟨.name closable acc, stack⟩ (lead ++ ((quote m.1).toList ++ ':' :: cs)) =
        run ⟨.value false, .obj acc m.1 :: stack⟩ cs := by
    rw [run_blanks (fun c rest hc => run_name_space hc stack rest closable acc) hlead,
      run_name_quote]
    rfl
  rw [List.cons_append, hopen, List.append_assoc, nesting, ← Nat.add_assoc]
  by_cases hstack : stack.length + 1 < nestingBound
  · rw [if_pos hstack]
    cases members with
    | nil =>
      rw [List.map_nil, List.intercalate_nil, List.nil_append, List.append_assoc,
        run_blanks (fun c rest hc => run_name_space hc _ rest true []) htail, nestingMembers,
        if_pos hstack]
      rfl
    | cons m more =>
      refine run_items (fun closable acc => ⟨.name closable acc, stack⟩)
        (fun acc => ⟨.next, .obj acc ((acc.head?.map Prod.fst).getD "") :: stack⟩)
        (fun members => finish (.obj members) stack) (fun m hm closable acc rest hrest => ?_)
        (fun _ _ => rfl) (fun acc => ?_) ?_ rfl (fun _ _ => rfl) (List.cons_ne_nil _ _) true []
      · -- the name waits in the frame while its value is read
        rw [List.append_assoc, List.append_assoc, List.cons_append, hname]
        exact (h m hm).run_inside hstack (.obj acc m.1) false hrest
      · rw [List.append_assoc, run_blanks (fun c rest hc => run_next_space hc _ rest) htail]
        rfl
      · rw [List.append_assoc]
        exact detached_blanks htail (.inr (.inr rfl)) rest
  · rw [if_neg hstack, if_neg (by omega)]

end Containers

end Reader

/-! ## Lists of texts -/

theorem renderList_eq_map (elems : List Json) : renderList elems = elems.map render := by
  induction elems with
  | nil => rfl
  | cons j rest ih => rw [renderList, ih, List.map_cons]

theorem renderMembers_eq_map (members : List (String × Json)) :
    renderMembers members = members.map fun m => quote m.1 ++ ":" ++ m.2.render := by
  induction members with
  | nil => rfl
  | cons m rest ih => rw [renderMembers, ih, List.map_cons]

theorem prettyList_eq_map (level : Nat) (elems : List Json) :
    prettyList level elems = elems.map (prettyAt level) := by
  induction elems with
  | nil => rfl
  | cons j rest ih => rw [prettyList, ih, List.map_cons]

theorem prettyMembers_eq_map (level : Nat) (members : List (String × Json)) :
    prettyMembers level members = members.map fun m => quote m.1 ++ ": " ++ prettyAt level m.2 := by
  induction members with
  | nil => rfl
  | cons m rest ih => rw [prettyMembers, ih, List.map_cons]

/-- The end of a line and the blanks in front of the next. -/
def lineBreak (level : Nat) : List Char := '\n' :: (indent level).toList

theorem isSpace_of_mem_lineBreak {level : Nat} {c : Char} (h : c ∈ lineBreak level) :
    Reader.isSpace c = true := by
  rw [lineBreak, indent, String.toList_ofList] at h
  rcases List.mem_cons.1 h with rfl | h
  · rfl
  · rw [List.eq_of_mem_replicate h]
    rfl

/-- A block is its items with line breaks in front of them, and blanks before its end. -/
theorem exists_toList_block (level : Nat) (opening closing : String) (items : List String) :
    ∃ tail, (∀ c ∈ tail, Reader.isSpace c = true) ∧
      (block level opening closing items).toList = opening.toList ++
        ([','].intercalate (items.map fun item => lineBreak (level + 1) ++ item.toList) ++
          (tail ++ closing.toList)) := by
  cases items with
  | nil =>
    refine ⟨[], fun _ hc => absurd hc List.not_mem_nil, ?_⟩
    rw [block, List.isEmpty_nil, if_pos rfl, String.toList_append]
    rfl
  | cons item items =>
    refine ⟨lineBreak level, fun _ => isSpace_of_mem_lineBreak, ?_⟩
    rw [block, List.isEmpty_cons, if_neg Bool.false_ne_true]
    -- a list with an item is written in lines, whatever its items
    generalize item :: items = items
    have hlines : (items.map fun item => "\n" ++ indent (level + 1) ++ item).map String.toList =
        items.map fun item => lineBreak (level + 1) ++ item.toList := by
      rw [List.map_map]
      refine List.map_congr_left fun item _ => ?_
      simp [String.toList_append, lineBreak]
    simp only [String.toList_append, String.toList_intercalate, hlines, lineBreak,
      List.append_assoc]
    rfl

/-! ## Documents -/

/-- Each number in a document is read back from its own text: integers have 64 bits, with a sign or
without, and what is read from the text of a double is that double. -/
inductive KeepsNumbers : Json → Prop
  | null : KeepsNumbers .null
  | bool (b : Bool) : KeepsNumbers (.bool b)
  | int {n : Int} : Numeral.fitsInt64 n = true ∨ 0 ≤ n ∧ n < Numeral.natBound →
      KeepsNumbers (.int n)
  | float {x : Double} : readFirst? (writeFloat x) = some (.float x, []) → KeepsNumbers (.float x)
  | str (s : String) : KeepsNumbers (.str s)
  | arr {elems : List Json} : (∀ j ∈ elems, KeepsNumbers j) → KeepsNumbers (.arr elems)
  | obj {members : List (String × Json)} : (∀ m ∈ members, KeepsNumbers m.2) →
      KeepsNumbers (.obj members)

open Reader

theorem KeepsNumbers.isText_render {j : Json} (h : j.KeepsNumbers) : IsText j j.render.toList := by
  have hnone : ∀ c ∈ ([] : List Char), isSpace c = true := fun _ hc => absurd hc List.not_mem_nil
  induction h with
  | null => exact isText_of_nesting_eq_zero rfl fun _ _ _ _ => rfl
  | bool b =>
    refine isText_of_nesting_eq_zero rfl fun _ _ _ _ => ?_
    cases b with
    | false => rfl
    | true => rfl
  | int hn => exact isText_int hn
  | float hx => exact isText_float hx
  | str s =>
    refine isText_of_nesting_eq_zero rfl fun closable stack rest _ => ?_
    exact run_value_quote s closable stack rest
  | @arr elems _ ih =>
    have htext : (Json.arr elems).render.toList =
        '[' :: ([','].intercalate (elems.map fun j => j.render.toList) ++ ([] ++ [']'])) := by
      rw [render, renderList_eq_map]
      simp [String.toList_append, String.toList_intercalate, Function.comp_def]
    rw [htext]
    exact isText_arr hnone ih
  | @obj members _ ih =>
    have htext : (Json.obj members).render.toList = '\x7b' :: ([','].intercalate
        (members.map fun m => [] ++ ((quote m.1).toList ++ ':' :: m.2.render.toList)) ++
        ([] ++ ['\x7d'])) := by
      rw [render, renderMembers_eq_map]
      simp [String.toList_append, String.toList_intercalate, Function.comp_def]
    rw [htext]
    exact isText_obj hnone hnone ih

theorem KeepsNumbers.isText_prettyAt {j : Json} (h : j.KeepsNumbers) (level : Nat) :
    IsText j (prettyAt level j).toList := by
  induction h generalizing level with
  | null => exact KeepsNumbers.null.isText_render
  | bool b => exact (KeepsNumbers.bool b).isText_render
  | int hn => exact isText_int hn
  | float hx => exact isText_float hx
  | str s => exact (KeepsNumbers.str s).isText_render
  | @arr elems _ ih =>
    rw [prettyAt, prettyList_eq_map]
    obtain ⟨tail, htail, htext⟩ :=
      exists_toList_block level "[" "]" (elems.map (prettyAt (level + 1)))
    rw [htext, List.map_map]
    exact isText_arr htail fun j hj => (ih j hj (level + 1)).blanks fun _ =>
      isSpace_of_mem_lineBreak
  | @obj members _ ih =>
    rw [prettyAt, prettyMembers_eq_map]
    obtain ⟨tail, htail, htext⟩ := exists_toList_block level "\x7b" "\x7d"
      (members.map fun m => quote m.1 ++ ": " ++ prettyAt (level + 1) m.2)
    have hitems : members.map ((fun item => lineBreak (level + 1) ++ item.toList) ∘ fun m =>
          quote m.1 ++ ": " ++ prettyAt (level + 1) m.2) =
        members.map fun m => lineBreak (level + 1) ++
          ((quote m.1).toList ++ ':' :: ([' '] ++ (prettyAt (level + 1) m.2).toList)) := by
      simp [String.toList_append, Function.comp_def]
    rw [htext, List.map_map, hitems]
    refine isText_obj htail (fun _ => isSpace_of_mem_lineBreak) fun m hm =>
      (ih m hm (level + 1)).blanks ?_
    exact List.forall_mem_singleton.2 rfl

/-- A text that is read as a value wherever one may stand, read alone. -/
theorem read?_of_isText {j : Json} {text : String} (h : IsText j text.toList) :
    read? text = if j.nesting < nestingBound then some j else none := by
  have hrun := h false [] [] (by decide) detached_nil
  rw [List.append_nil, List.length_nil, Nat.zero_add] at hrun
  rw [read?, readFirst?, hrun]
  split
  · rfl
  · rfl

/-- A document in one line is read back, unless its containers nest too deep. -/
theorem read?_render {j : Json} (h : j.KeepsNumbers) :
    read? j.render = if j.nesting < nestingBound then some j else none :=
  read?_of_isText h.isText_render

/-- So is a document over several lines. -/
theorem read?_pretty {j : Json} (h : j.KeepsNumbers) :
    read? j.pretty = if j.nesting < nestingBound then some j else none :=
  read?_of_isText (h.isText_prettyAt 0)

theorem keepsNumbers_float_iff {x : Double} :
    (Json.float x).KeepsNumbers ↔ readFirst? (writeFloat x) = some (.float x, []) := by
  constructor
  · rintro ⟨⟩
    assumption
  · exact .float

/-- Not every double is read back: the greatest odd integer that doubles hold is read as a
neighbour. -/
theorem exists_not_keepsNumbers :
    ∃ x : Double, x.isFinite = true ∧ ¬ (Json.float x).KeepsNumbers := by
  refine ⟨.ofNat 9007199254740991, by decide +kernel, ?_⟩
  intro h
  rw [keepsNumbers_float_iff] at h
  have hread : ((readFirst? (writeFloat (.ofNat 9007199254740991))).map fun r => r.1.render) =
      some "9007199254740990.0" := by decide +kernel
  have hwritten : writeFloat (.ofNat 9007199254740991) = "9007199254740991.0" := by decide +kernel
  rw [h, Option.map_some, render, hwritten] at hread
  exact absurd hread (by decide)

end QueryTypes.Json
