import FlowIR.Json.Printer
import FlowIR.Json.Reader
import FlowIR.Proofs.Decimal.Numeral

/-!
# Documents that are read back

A written document is cut into its tokens, and its tokens are put together to the document. A
numeral or a word ends only where the next character cannot belong to it, so the lexer is followed
through texts of two kinds: those after which anything may follow, and those after which a blank, a
comma or a closing bracket has to.
-/
namespace FlowIR.Json

/-- Numbers have digits where the format wants some, texts and keys have characters. -/
inductive Printable : Json → Prop where
  | null : Printable .null
  | bool (value : Bool) : Printable (.bool value)
  | number {numeral : Decimal.Numeral} (valid : numeral.IsValid) : Printable (.number numeral)
  | text (chars : String) : Printable (.text (some chars))
  | list {items : List Json} (each : ∀ item ∈ items, Printable item) : Printable (.list items)
  | object {fields : List (Option String × Json)} (keys : ∀ field ∈ fields, field.1.isSome)
      (values : ∀ field ∈ fields, Printable field.2) : Printable (.object fields)

mutual

def tokens : Json → List Token
  | null => [.null]
  | bool value => [.bool value]
  | number numeral => [.number numeral]
  | text chars => [.text chars]
  | list [] => [.openList, .closeList]
  | list (item :: items) => .openList :: tokens item ++ itemTokens items ++ [.closeList]
  | object [] => [.openObject, .closeObject]
  | object ((key, value) :: fields) =>
    .openObject :: .text key :: .colon :: tokens value ++ fieldTokens fields ++ [.closeObject]

def itemTokens : List Json → List Token
  | [] => []
  | item :: items => .comma :: tokens item ++ itemTokens items

def fieldTokens : List (Option String × Json) → List Token
  | [] => []
  | (key, value) :: fields => .comma :: .text key :: .colon :: tokens value ++ fieldTokens fields

end

/-! ### Texts and their tokens -/

/-- The lexer takes the text for these tokens, and after the last of them anything may follow. -/
def Closed (text : List Char) (tokens : List Token) : Prop :=
  ∀ before, text.foldlM lexStep { mode := .between, tokens := before } =
    some { mode := .between, tokens := tokens.reverse ++ before }

/-- The lexer takes the text for these tokens if it ends here. -/
def Lexes (text : List Char) (tokens : List Token) : Prop :=
  ∀ before, ∃ state, text.foldlM lexStep { mode := .between, tokens := before } = some state ∧
    lexEnd? state = some (tokens.reverse ++ before)

/-- The character does not belong to the word or the numeral before it. -/
def Stops (c : Char) : Prop := isNumeralChar c = false ∧ c.isLower = false

instance (c : Char) : Decidable (Stops c) := inferInstanceAs (Decidable (_ ∧ _))

private theorem Closed.lexes {text : List Char} {tokens : List Token}
    (closed : Closed text tokens) : Lexes text tokens :=
  fun before => ⟨_, closed before, rfl⟩

private theorem Closed.append {text more : List Char} {tokens later : List Token}
    (closed : Closed text tokens) (next : Closed more later) :
    Closed (text ++ more) (tokens ++ later) := by
  intro before
  simp [List.foldlM_append, closed before, next (tokens.reverse ++ before)]

private theorem Closed.append_lexes {text more : List Char} {tokens later : List Token}
    (closed : Closed text tokens) (next : Lexes more later) :
    Lexes (text ++ more) (tokens ++ later) := by
  intro before
  simpa [List.foldlM_append, closed before] using next (tokens.reverse ++ before)

/-- A character that cannot belong to the last token finds the lexer as if it were between two
tokens. -/
theorem lexStep_of_lexEnd? {state : LexState} {tokens : List Token}
    (ended : lexEnd? state = some tokens) {c : Char} (stops : Stops c) :
    lexStep state c = lexStep { mode := .between, tokens } c := by
  obtain ⟨mode, before⟩ := state
  cases mode with
  | between =>
    have same : before = tokens := Option.some.inj ended
    rw [same]
  | word letters =>
    have finished : finishWord? letters before = some tokens := ended
    simp [lexStep, stops.2, finished]
  | numeral chars =>
    have finished : finishNumeral? chars before = some tokens := ended
    simp [lexStep, stops.1, finished]
  | quoted _ | escaped _ | hex _ _ _ => simp [lexEnd?] at ended

private theorem Lexes.append_closed {text more : List Char} {c : Char} {tokens later : List Token}
    (lexed : Lexes text tokens) (stops : Stops c) (next : Closed (c :: more) later) :
    Closed (text ++ c :: more) (tokens ++ later) := by
  intro before
  obtain ⟨state, reached, ended⟩ := lexed before
  have resumed := next (tokens.reverse ++ before)
  rw [List.foldlM_cons, ← lexStep_of_lexEnd? ended stops] at resumed
  simpa [List.foldlM_append, reached] using resumed

private theorem closed_blanks (count : Nat) : Closed (List.replicate count ' ') [] := by
  intro before
  induction count with
  | zero => rfl
  | succ count ih => exact ih

private theorem closed_newline (depth : Nat) : Closed (newline depth) [] := by
  have line_end : Closed ['\n'] [] := fun _ => rfl
  exact line_end.append (closed_blanks (2 * depth))

/-! ### Quoted texts -/

private theorem charsOfPieces?_unit {unit : Nat} (plain : unit < 0xD800) (rest : List Piece) :
    charsOfPieces? (.unit unit :: rest) = (charsOfPieces? rest).map (Char.ofNat unit :: ·) := by
  have not_high : isHighSurrogate unit = false := by simp [isHighSurrogate]; omega
  have not_low : isLowSurrogate unit = false := by simp [isLowSurrogate]; omega
  match rest with
  | [] => simp [charsOfPieces?, not_high, not_low]
  | .char c :: rest => simp [charsOfPieces?, not_high, not_low]
  | .unit next :: rest => simp [charsOfPieces?, not_high, not_low]

private theorem hexValue?_hexDigit : ∀ n < 16, hexValue? (hexDigit n) = some n := by decide

/-- However a character is written, the lexer gathers one piece that stands for it. -/
theorem lex_escapeChar (c : Char) (pieces : List Piece) (tokens : List Token) :
    ∃ piece, (escapeChar c).foldlM lexStep { mode := .quoted pieces, tokens } =
        some { mode := .quoted (piece :: pieces), tokens } ∧
      ∀ rest, charsOfPieces? (piece :: rest) = (charsOfPieces? rest).map (c :: ·) := by
  have as_char : ∀ rest, charsOfPieces? (.char c :: rest) = (charsOfPieces? rest).map (c :: ·) :=
    fun _ => rfl
  unfold escapeChar
  -- The characters with a letter of their own come first.
  iterate 7
    split
    · subst_vars
      exact ⟨_, rfl, as_char⟩
  split
  next control =>
    have high := hexValue?_hexDigit (c.toNat / 16) (by omega)
    have low := hexValue?_hexDigit (c.toNat % 16) (by omega)
    have zero : hexValue? '0' = some 0 := by decide
    have same : 16 * (c.toNat / 16) + c.toNat % 16 = c.toNat := by omega
    -- The four digits make one code unit, which is too small for half of a pair.
    refine ⟨.unit c.toNat, ?_, fun rest => ?_⟩
    · simp [lexStep, high, low, zero, same]
    · rw [charsOfPieces?_unit (by omega), Char.ofNat_toNat]
  next not_quote not_backslash _ _ _ _ _ not_control =>
    exact ⟨.char c, by simp [lexStep, not_quote, not_backslash, not_control], as_char⟩

private theorem lex_escaped (cs : List Char) (pieces : List Piece) (tokens : List Token) :
    ∃ gathered, (cs.flatMap escapeChar).foldlM lexStep { mode := .quoted pieces, tokens } =
        some { mode := .quoted (gathered.reverse ++ pieces), tokens } ∧
      charsOfPieces? gathered = some cs := by
  induction cs generalizing pieces with
  | nil => exact ⟨[], rfl, rfl⟩
  | cons c cs ih =>
    obtain ⟨piece, first, stands⟩ := lex_escapeChar c pieces tokens
    obtain ⟨gathered, rest, stand⟩ := ih (piece :: pieces)
    refine ⟨piece :: gathered, ?_, by rw [stands, stand]; rfl⟩
    simp [List.foldlM_append, first, rest]

private theorem closed_quote (text : String) : Closed (quote text) [.text (some text)] := by
  intro before
  obtain ⟨gathered, lexed, stand⟩ := lex_escaped text.toList [] before
  have opened :
      lexStep { mode := .between, tokens := before } '"' =
        some { mode := .quoted [], tokens := before } := rfl
  rw [quote, List.cons_append, List.foldlM_cons, opened]
  simp [List.foldlM_append, lexed, lexStep, textToken, stand]

/-! ### Words and numerals -/

private theorem lex_numeralChars (cs gathered : List Char) (tokens : List Token)
    (inside : ∀ c ∈ cs, isNumeralChar c) :
    cs.foldlM lexStep { mode := .numeral gathered, tokens } =
      some { mode := .numeral (cs.reverse ++ gathered), tokens } := by
  induction cs generalizing gathered with
  | nil => rfl
  | cons c cs ih =>
    have first : isNumeralChar c := inside c (by simp)
    have step :
        lexStep { mode := .numeral gathered, tokens } c =
            some { mode := .numeral (c :: gathered), tokens } := by
      simp [lexStep, first]
    rw [List.foldlM_cons, step]
    simpa using ih (c :: gathered) fun c mem => inside c (by simp [mem])

private theorem isNumeralChar_digit (digit : Decimal.Digit) : isNumeralChar digit.char := by
  revert digit
  decide

private theorem isNumeralChar_of_mem {numeral : Decimal.Numeral} {c : Char}
    (mem : c ∈ numeral.chars) : isNumeralChar c := by
  have in_digits : ∀ ds : List Decimal.Digit, c ∈ Decimal.chars ds → isNumeralChar c := by
    intro ds among
    obtain ⟨digit, -, rfl⟩ := List.mem_map.mp among
    exact isNumeralChar_digit digit
  have in_mark : ∀ marks : List Char, marks.all isNumeralChar → c ∈ marks → isNumeralChar c :=
    fun marks all among => List.all_eq_true.mp all c among
  simp only [Decimal.Numeral.chars, List.mem_append] at mem
  rcases mem with ((sign | whole) | fraction) | exponent
  · exact in_mark _ (by split <;> decide) sign
  · exact in_digits _ whole
  · cases given : numeral.fraction with
    | none => simp [given, Decimal.Numeral.fractionChars] at fraction
    | some ds =>
      rw [given, Decimal.Numeral.fractionChars, List.mem_cons] at fraction
      exact fraction.elim (fun point => in_mark ['.'] (by decide) (by simp [point])) (in_digits ds)
  · cases given : numeral.exponent with
    | none => simp [given, Decimal.Numeral.exponentChars] at exponent
    | some written =>
      rw [given, Decimal.Numeral.exponentChars, List.mem_append] at exponent
      exact exponent.elim (in_mark _ (by cases written.sign <;> decide)) (in_digits _)

private theorem lexStep_digit (digit : Decimal.Digit) (before : List Token) :
    lexStep { mode := .between, tokens := before } digit.char =
      some { mode := .numeral [digit.char], tokens := before } := by
  have starts : ∀ digit : Decimal.Digit,
      isBlank digit.char = false ∧ digit.char ≠ '"' ∧
        (digit.char = '-' || digit.char.isDigit) = true := by decide
  obtain ⟨not_blank, not_quote, opens⟩ := starts digit
  simp [lexStep, startToken?, not_blank, not_quote, opens]

/-- A numeral opens with its sign or with a digit. -/
theorem chars_numeral_eq_cons {numeral : Decimal.Numeral} (valid : numeral.IsValid) :
    ∃ c cs, numeral.chars = c :: cs ∧ ∀ before : List Token,
      lexStep { mode := .between, tokens := before } c =
        some { mode := .numeral [c], tokens := before } := by
  cases leads : numeral.negative with
  | true => exact ⟨'-', _, by rw [Decimal.Numeral.chars, leads]; rfl, fun _ => rfl⟩
  | false =>
    cases whole : numeral.whole with
    | nil => exact absurd valid.whole (by simp [whole, Decimal.Numeral.wholeIsValid])
    | cons digit ds =>
      exact ⟨digit.char, _, by rw [Decimal.Numeral.chars, leads, whole]; rfl, lexStep_digit digit⟩

private theorem lexes_numeral {numeral : Decimal.Numeral} (valid : numeral.IsValid) :
    Lexes numeral.chars [.number numeral] := by
  intro before
  obtain ⟨c, cs, split, opened⟩ := chars_numeral_eq_cons valid
  refine ⟨{ mode := .numeral (cs.reverse ++ [c]), tokens := before }, ?_, ?_⟩
  · have inside : ∀ c ∈ cs, isNumeralChar c :=
      fun c mem => isNumeralChar_of_mem (split ▸ List.mem_cons_of_mem _ mem)
    rw [split, List.foldlM_cons, opened]
    exact lex_numeralChars cs [c] before inside
  · have parsed := Decimal.Numeral.parse?_chars valid
    rw [split] at parsed
    simp [lexEnd?, finishNumeral?, parsed]

/-! ### Documents -/

private theorem itemChars_eq (depth : Nat) (items : List Json) :
    itemChars depth items = items.flatMap fun item => ',' :: newline depth ++ chars depth item := by
  induction items with
  | nil => rfl
  | cons item items ih => rw [itemChars, ih, List.flatMap_cons]

/-- The characters of a field. -/
def pairChars (depth : Nat) (field : Option String × Json) : List Char :=
  quote (field.1.getD "") ++ [':', ' '] ++ chars depth field.2

def pairTokens (field : Option String × Json) : List Token :=
  .text field.1 :: .colon :: tokens field.2

private theorem fieldChars_eq (depth : Nat) (fields : List (Option String × Json)) :
    fieldChars depth fields = fields.flatMap fun field =>
      ',' :: newline depth ++ pairChars depth field := by
  induction fields with
  | nil => rfl
  | cons field fields ih => simp [fieldChars, ih, pairChars]

private theorem itemTokens_eq (items : List Json) :
    itemTokens items = items.flatMap fun item => .comma :: tokens item := by
  induction items with
  | nil => rfl
  | cons item items ih => rw [itemTokens, ih, List.flatMap_cons]

private theorem fieldTokens_eq (fields : List (Option String × Json)) :
    fieldTokens fields = fields.flatMap fun field => .comma :: pairTokens field := by
  induction fields with
  | nil => rfl
  | cons field fields ih => simp [fieldTokens, ih, pairTokens]

/-- A comma and a new line stand between two parts. -/
theorem Lexes.separated {α : Type} {write : α → List Char} {cut : α → List Token} (depth : Nat)
    {parts : List α} (each : ∀ part ∈ parts, Lexes (write part) (cut part)) {text : List Char}
    {tokens : List Token} (lexed : Lexes text tokens) :
    Lexes (text ++ parts.flatMap fun part => ',' :: newline depth ++ write part)
      (tokens ++ parts.flatMap fun part => .comma :: cut part) := by
  induction parts generalizing text tokens with
  | nil => simpa using lexed
  | cons part parts ih =>
    have comma : Closed [','] [.comma] := fun _ => rfl
    have upto :=
      (lexed.append_closed (by decide) (comma.append (closed_newline depth))).append_lexes
        (each part (by simp))
    have all := ih (fun later mem => each later (by simp [mem])) upto
    simpa using all

/-- Brackets stand on the lines before and after the parts. -/
theorem closed_bracketed {α : Type} {write : α → List Char} {cut : α → List Token}
    {left right : Char} {opening closing : Token} (opens : Closed [left] [opening])
    (closes : Closed [right] [closing]) (depth : Nat) {first : α} {parts : List α}
    (each : ∀ part ∈ first :: parts, Lexes (write part) (cut part)) :
    Closed
      (left :: newline (depth + 1) ++ write first
        ++ (parts.flatMap fun part => ',' :: newline (depth + 1) ++ write part) ++
          newline depth ++ [right])
      (opening :: cut first ++ (parts.flatMap fun part => .comma :: cut part) ++ [closing]) := by
  have inside := (each first (by simp)).separated (depth + 1) fun part mem =>
    each part (List.mem_cons_of_mem _ mem)
  -- The end of the line is what ends the last part.
  have last : Closed ('\n' :: (List.replicate (2 * depth) ' ' ++ [right])) [closing] :=
    (closed_newline depth).append closes
  have all := ((opens.append (closed_newline (depth + 1))).append_lexes inside).append_closed
    (by decide) last
  simpa [newline] using all

private theorem lexes_pair {field : Option String × Json} {depth : Nat} (key : field.1.isSome)
    (value : Lexes (chars depth field.2) field.2.tokens) :
    Lexes (pairChars depth field) (pairTokens field) := by
  obtain ⟨name, named⟩ := Option.isSome_iff_exists.mp key
  have colon : Closed [':', ' '] [.colon] := fun _ => rfl
  simpa [pairChars, pairTokens, named] using ((closed_quote name).append colon).append_lexes value

private theorem Printable.lexes {document : Json} (printable : document.Printable) (depth : Nat) :
    Lexes (document.chars depth) document.tokens := by
  -- What is inside a list or an object is written one level deeper, so the depth is general.
  induction printable generalizing depth with
  | null => exact fun before => ⟨_, rfl, rfl⟩
  | bool value => cases value <;> exact fun before => ⟨_, rfl, rfl⟩
  | number valid => exact lexes_numeral valid
  | text chars => exact (closed_quote chars).lexes
  | @list items each ih =>
    cases items with
    | nil => exact fun before => ⟨_, rfl, rfl⟩
    | cons item items =>
      rw [chars, tokens, itemChars_eq, itemTokens_eq]
      exact (closed_bracketed (fun _ => rfl) (fun _ => rfl) depth fun part mem =>
        ih part mem (depth + 1)).lexes
  | @object fields keys values ih =>
    cases fields with
    | nil => exact fun before => ⟨_, rfl, rfl⟩
    | cons field fields =>
      have pairs : ∀ part ∈ field :: fields, Lexes (pairChars (depth + 1) part) (pairTokens part) :=
        fun part mem => lexes_pair (keys part mem) (ih part mem (depth + 1))
      have opens : Closed ['\x7b'] [.openObject] := fun _ => rfl
      have closes : Closed ['\x7d'] [.closeObject] := fun _ => rfl
      simpa [chars, tokens, fieldChars_eq, fieldTokens_eq, pairChars, pairTokens] using
        (closed_bracketed opens closes depth pairs).lexes

private theorem lex?_chars {document : Json} (printable : document.Printable) :
    lex? (document.chars 0) = some document.tokens := by
  obtain ⟨state, reached, ended⟩ := printable.lexes 0 []
  simp [lex?, reached, ended]

/-! ### Tokens and their document -/

/-- The next token has to open a value, or close a list. -/
def AwaitsValue (state : ReadState) : Prop :=
  ∀ token, token ≠ .closeList → readStep state token = startValue? state.frames token

/-- The tokens of the document are put together to it wherever a value may stand. -/
def Reads (document : Json) : Prop :=
  ∀ state, AwaitsValue state →
    document.tokens.foldlM readStep state =
      some { expected := .commaOrClose document, frames := state.frames }

/-- The rest of a list whose last item so far has just been read. -/
theorem read_items {items : List Json} (each : ∀ item ∈ items, Reads item) (before : List Json)
    (last : Json) (frames : List Frame) :
    (itemTokens items ++ [Token.closeList]).foldlM readStep
        { expected := .commaOrClose last, frames := .list before :: frames } =
      some { expected := .commaOrClose (.list (before.reverse ++ last :: items)), frames } := by
  induction items generalizing before last with
  | nil => simp [itemTokens, readStep]
  | cons item items ih =>
    -- The comma puts the last item into the frame, and the next item is then the last one.
    have awaits : AwaitsValue { expected := .value, frames := .list (last :: before) :: frames } :=
      fun _ _ => rfl
    have next := each item (by simp) _ awaits
    have later := ih (fun other mem => each other (List.mem_cons_of_mem _ mem))
      (last :: before) item
    have comma : readStep { expected := .commaOrClose last, frames := .list before :: frames }
      .comma = some { expected := .value, frames := .list (last :: before) :: frames } := rfl
    rw [itemTokens, List.append_assoc, List.cons_append, List.foldlM_cons, comma]
    simpa [next] using later

/-- The rest of an object whose last field so far has just been read. -/
theorem read_fields {fields : List (Option String × Json)} (each : ∀ field ∈ fields, Reads field.2)
    (before : List (Option String × Json)) (key : Option String) (last : Json)
    (frames : List Frame) :
    (fieldTokens fields ++ [Token.closeObject]).foldlM readStep
        { expected := .commaOrClose last, frames := .object before key :: frames } =
      some { expected := .commaOrClose (.object (before.reverse ++ (key, last) :: fields)),
             frames } := by
  induction fields generalizing before key last with
  | nil => simp [fieldTokens, readStep]
  | cons field fields ih =>
    obtain ⟨name, value⟩ := field
    have awaits : AwaitsValue
        { expected := .value, frames := .object ((key, last) :: before) name :: frames } :=
      fun _ _ => rfl
    have next := each (name, value) (by simp) _ awaits
    have later := ih (fun other mem => each other (List.mem_cons_of_mem _ mem))
      ((key, last) :: before) name value
    -- After the comma come the key and the colon, and then a value is awaited.
    have pair : [Token.comma, .text name, .colon].foldlM readStep
          { expected := .commaOrClose last, frames := .object before key :: frames } =
        some { expected := .value, frames := .object ((key, last) :: before) name :: frames } := rfl
    have split : fieldTokens ((name, value) :: fields) ++ [.closeObject] =
        [.comma, .text name, .colon] ++
          (value.tokens ++ (fieldTokens fields ++ [.closeObject])) := by
      simp [fieldTokens]
    rw [split, List.foldlM_append, pair]
    simpa [next] using later

private theorem reads_list {items : List Json} (each : ∀ item ∈ items, Reads item) :
    Reads (.list items) := by
  intro state awaits
  have opened : readStep state .openList =
      some { expected := .valueOrClose, frames := .list [] :: state.frames } := by
    rw [awaits _ (by simp)]
    rfl
  cases items with
  | nil =>
    rw [tokens, List.foldlM_cons, opened]
    rfl
  | cons item items =>
    -- Behind the bracket a value may come just as well, since it does not begin with the closing
    -- one.
    have inside : AwaitsValue
        { expected := .valueOrClose, frames := .list [] :: state.frames } := by
      intro token other
      cases token with
      | closeList => exact absurd rfl other
      | _ => rfl
    have first := each item (by simp) _ inside
    have rest := read_items (fun other mem => each other (List.mem_cons_of_mem _ mem)) []
      item state.frames
    rw [tokens, List.append_assoc, List.cons_append, List.foldlM_cons, opened]
    simpa [first] using rest

private theorem reads_object {fields : List (Option String × Json)}
    (each : ∀ field ∈ fields, Reads field.2) :
    Reads (.object fields) := by
  intro state awaits
  have opened : readStep state .openObject =
      some { expected := .keyOrClose, frames := state.frames } := by
    rw [awaits _ (by simp)]
    rfl
  match fields with
  | [] =>
    rw [tokens, List.foldlM_cons, opened]
    rfl
  | (key, value) :: fields =>
    -- The frame of the object waits for the first value, and `read_fields` takes over after it.
    have inside : AwaitsValue { expected := .value, frames := .object [] key :: state.frames } :=
      fun _ _ => rfl
    have first := each (key, value) (by simp) _ inside
    have rest := read_fields (fun other mem => each other (List.mem_cons_of_mem _ mem)) [] key
      value state.frames
    have pair : [Token.openObject, .text key, .colon].foldlM readStep state =
        some { expected := .value, frames := .object [] key :: state.frames } := by
      rw [List.foldlM_cons, opened]
      rfl
    have split : tokens (.object ((key, value) :: fields)) =
        [.openObject, .text key, .colon] ++
          (value.tokens ++ (fieldTokens fields ++ [.closeObject])) := by
      simp [tokens]
    rw [split, List.foldlM_append, pair]
    simpa [first] using rest

private theorem Printable.reads {document : Json} (printable : document.Printable) :
    document.Reads := by
  induction printable with
  | null | bool _ | number _ | text _ =>
    intro state awaits
    rw [tokens, List.foldlM_cons, awaits _ (by simp)]
    rfl
  | list _ ih => exact reads_list ih
  | object _ _ ih => exact reads_object ih

private theorem ofTokens?_tokens {document : Json} (printable : document.Printable) :
    ofTokens? document.tokens = some document := by
  have read := printable.reads { expected := .value, frames := [] } fun _ _ => rfl
  simp [ofTokens?, read, readEnd?]

theorem parse?_print {document : Json} (printable : document.Printable) :
    parse? document.print = some document := by
  rw [parse?, print, String.toList_ofList, lex?_chars printable]
  exact ofTokens?_tokens printable

end FlowIR.Json
