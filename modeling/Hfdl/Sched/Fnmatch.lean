import Hfdl.Codec.Utf8
import Hfdl.Regex
import Mathlib.Data.List.TakeWhile

/-! The globs of the file filter. The source turns a pattern into a regular expression byte by byte; a pattern's meaning
is given on its characters, and the two are compared. -/
namespace Hfdl.Fnmatch
open Codec Regex

def metachars : List Char := ['\\', '.', '+', '*', '?', '(', ')', '|', '[', ']', '{', '}', '^', '$']

/-- `regexp.QuoteMeta` on one character. -/
def quoteMeta (c : Char) : List Char := if c ∈ metachars then ['\\', c] else [c]

/-- A class that is searched for its end from a place on: what stands in it, and what follows it. -/
def closeClass (text : List UInt8) (j : Nat) : Option (List UInt8 × List UInt8) :=
  match (text.drop j).dropWhile (· != byte ']') with
  | [] => none
  | _ :: rest => some (text.take j ++ (text.drop j).takeWhile (· != byte ']'), rest)

def splitClass (text : List UInt8) : Option (List UInt8 × List UInt8) :=
  let j := if text.head? = some (byte '!') then 1 else 0
  closeClass text (if (text.drop j).head? = some (byte ']') then j + 1 else j)

/-- Only the backslash is escaped in a class. -/
def escapeRune (r : Char) : List Char := if r = '\\' then ['\\', '\\'] else [r]

def classText (stuff : List UInt8) : List Char :=
  let stuff :=
    if stuff.head? = some (byte '!') then byte '^' :: stuff.tail
    else if stuff.head? = some (byte '^') then byte '\\' :: stuff
    else stuff
  (runes stuff).flatMap escapeRune

theorem closeClass_length (closed : closeClass text j = some (stuff, rest)) : rest.length < text.length := by
  simp only [closeClass] at closed
  split at closed
  · cases closed
  · rename_i c after dropped
    cases closed
    have shorter := (List.dropWhile_suffix (l := text.drop j) (· != byte ']')).length_le
    rw [dropped, List.length_cons, List.length_drop] at shorter
    omega

def translateLoop (pat : List UInt8) : List Char :=
  match pat with
  | [] => []
  | c :: text =>
    if c = byte '*' then '.' :: '*' :: translateLoop text
    else if c = byte '?' then '.' :: translateLoop text
    else if c = byte '[' then
      match _split : splitClass text with
      -- not closed: the bracket is a character
      | none => '\\' :: '[' :: translateLoop text
      | some (stuff, rest) => '[' :: (classText stuff ++ ']' :: translateLoop rest)
    else quoteMeta (latin c) ++ translateLoop text
termination_by pat.length
decreasing_by
  · exact Nat.lt_succ_self _
  · exact Nat.lt_succ_self _
  · exact Nat.lt_succ_self _
  · exact (closeClass_length _split).trans (Nat.lt_succ_self _)
  · exact Nat.lt_succ_self _

def fnmatchTranslate (pat : List UInt8) : List Char := ['(', '?', 's', ')', '\\', 'A'] ++ translateLoop pat ++ ['\\', 'z']

/-- The compiled patterns. -/
abbrev Cache := List UInt8 → Option (List Node)

def fnmatch (cache : Cache) (name : List Char) (pat : List UInt8) : Bool × Cache :=
  match cache pat with
  | some re => (matchString re name, cache)
  | none =>
    match compile (fnmatchTranslate pat) with
    | .error _ => (false, cache)
    | .ok re => (matchString re name, Function.update cache pat (some re))

/-- The characters between a bracket and the one that closes it: the first is one of them whatever it is. -/
structure Bracket where
  negated : Bool
  first : Char
  rest : List Char
  closed : ']' ∉ rest
deriving DecidableEq

namespace Bracket

def body (b : Bracket) : List Char := b.first :: b.rest

def text (b : Bracket) : List Char := if b.negated then '!' :: b.body else b.body

end Bracket

theorem not_mem_takeWhile (c : Char) (text : List Char) : c ∉ text.takeWhile (· != c) := by
  intro member
  have differs := List.mem_takeWhile_imp member
  simp at differs

/-- The class at the beginning of a text, and what follows it. -/
def bracketAt (negated : Bool) : List Char → Option (Bracket × List Char)
  | [] => none
  | first :: text =>
    match text.dropWhile (· != ']') with
    | [] => none
    | _ :: after => some (⟨negated, first, text.takeWhile (· != ']'), not_mem_takeWhile ']' text⟩, after)

def bracket (text : List Char) : Option (Bracket × List Char) :=
  if text.head? = some '!' then bracketAt true text.tail else bracketAt false text

theorem dropWhile_close (text : List Char) :
    text.dropWhile (· != ']') = [] ∨ ∃ after, text.dropWhile (· != ']') = ']' :: after := by
  cases dropped : text.dropWhile (· != ']') with
  | nil => exact .inl rfl
  | cons c after =>
    have head := List.head?_dropWhile_not (· != ']') text
    rw [dropped] at head
    obtain rfl : c = ']' := by simpa using head
    exact .inr ⟨after, rfl⟩

theorem bracketAt_text (found : bracketAt negated text = some (b, after)) :
    b.body ++ ']' :: after = text ∧ b.negated = negated := by
  cases text with
  | nil => cases found
  | cons first text =>
    have whole := List.takeWhile_append_dropWhile (p := (· != ']')) (l := text)
    rcases dropWhile_close text with none | ⟨rest, dropped⟩
    · simp only [bracketAt, none] at found
      cases found
    · simp only [bracketAt, dropped] at found
      cases found
      rw [dropped] at whole
      exact ⟨congrArg (first :: ·) whole, rfl⟩

theorem bracket_text (found : bracket text = some (b, after)) : text = b.text ++ ']' :: after := by
  simp only [bracket] at found
  split at found
  · rename_i bang
    obtain ⟨whole, negated⟩ := bracketAt_text found
    cases text with
    | nil => cases bang
    | cons c text =>
      cases bang
      rw [Bracket.text, if_pos negated, List.cons_append, whole]
      rfl
  · obtain ⟨whole, negated⟩ := bracketAt_text found
    rw [Bracket.text, if_neg (by rw [negated]; decide), whole]

inductive Token where
  | star
  | any
  | lit (c : Char)
  | cls (b : Bracket)
deriving DecidableEq

theorem bracket_length (found : bracket text = some (b, after)) : after.length < text.length := by
  have whole := congrArg List.length (bracket_text found)
  simp only [List.length_append, List.length_cons] at whole
  omega

/-- A pattern in its parts. A bracket that nothing closes is a character. -/
def tokens (pat : List Char) : List Token :=
  match pat with
  | [] => []
  | c :: text =>
    if c = '*' then .star :: tokens text
    else if c = '?' then .any :: tokens text
    else if c = '[' then
      match _found : bracket text with
      | none => .lit '[' :: tokens text
      | some (b, after) => .cls b :: tokens after
    else .lit c :: tokens text
termination_by pat.length
decreasing_by
  · exact Nat.lt_succ_self _
  · exact Nat.lt_succ_self _
  · exact Nat.lt_succ_self _
  · exact (bracket_length _found).trans (Nat.lt_succ_self _)
  · exact Nat.lt_succ_self _

/-- The ranges of a class, left to right; a character that is not in a range is one by itself. -/
def ranges : List Char → List (Char × Char)
  | [] => []
  | lo :: text =>
    match text with
    | '-' :: hi :: rest => (lo, hi) :: ranges rest
    | rest => (lo, lo) :: ranges rest

def InClass (body : List Char) (c : Char) : Prop := ∃ r ∈ ranges body, r.1 ≤ c ∧ c ≤ r.2
deriving Decidable

def Token.language : Token → Language Char
  | .star => ⊤
  | .any => {w | ∃ c, w = [c]}
  | .lit c => {[c]}
  | .cls b => {w | ∃ c, w = [c] ∧ (InClass b.body c ↔ b.negated = false)}

/-- The names that a pattern stands for: the whole name is made of its parts. -/
def Glob (pat name : List Char) : Prop := name ∈ ((tokens pat).map Token.language).prod

/-- What the source writes for a part. The bytes of a character are quoted one by one. -/
def Token.emit : Token → List Char
  | .star => ['.', '*']
  | .any => ['.']
  | .lit c => (String.utf8EncodeChar c).flatMap fun b => quoteMeta (latin b)
  | .cls b =>
    let sign := if b.negated then ['^'] else if b.first = '^' then ['\\', '\\'] else []
    '[' :: (sign ++ b.body.flatMap escapeRune ++ [']'])

theorem ascii_bang : Ascii '!' := by decide

theorem ascii_close : Ascii ']' := by decide

theorem closeClass_utf8 (front : List UInt8) (negated : Bool) (text : List Char) :
    closeClass (front ++ utf8 text) (if (utf8 text).head? = some (byte ']') then front.length + 1 else front.length) =
      (bracketAt negated text).map fun p => (front ++ utf8 p.1.body, utf8 p.2) := by
  have close := ascii_close
  cases text with
  | nil => simp [closeClass, bracketAt, utf8]
  | cons c text =>
    by_cases same : c = ']'
    · subst same
      have head : (utf8 (']' :: text)).head? = some (byte ']') := (head_utf8 close _).mpr rfl
      have dropped : (front ++ byte ']' :: utf8 text).drop (front.length + 1) = utf8 text := by simp [List.drop_append]
      have taken : (front ++ byte ']' :: utf8 text).take (front.length + 1) = front ++ [byte ']'] := by simp [List.take_append]
      rw [if_pos head, utf8_cons_ascii close]
      simp only [closeClass, dropped, taken, dropWhile_utf8 close, takeWhile_utf8 close, bracketAt]
      rcases dropWhile_close text with none | ⟨after, found⟩
      · simp [none, utf8]
      · simp only [found, utf8_cons_ascii close, Option.map_some, Bracket.body, List.append_assoc, List.singleton_append]
    · have head : ¬ (utf8 (c :: text)).head? = some (byte ']') := fun head =>
        same (Option.some.inj ((head_utf8 close _).mp head))
      have kept : (c != ']') = true := bne_iff_ne.mpr same
      have taken : (c :: text).takeWhile (· != ']') = c :: text.takeWhile (· != ']') := List.takeWhile_cons_of_pos kept
      have dropped : (c :: text).dropWhile (· != ']') = text.dropWhile (· != ']') := List.dropWhile_cons_of_pos kept
      rw [if_neg head]
      simp only [closeClass, List.drop_left, List.take_left, dropWhile_utf8 close, takeWhile_utf8 close, bracketAt, taken,
        dropped]
      rcases dropWhile_close text with none | ⟨after, found⟩
      · simp [none, utf8]
      · simp only [found, utf8_cons_ascii close, Option.map_some, Bracket.body]

theorem splitClass_utf8 (text : List Char) :
    splitClass (utf8 text) = (bracket text).map fun p => (utf8 p.1.text, utf8 p.2) := by
  have bang := ascii_bang
  have sign : ∀ {negated text b after}, bracketAt negated text = some (b, after) → b.negated = negated :=
    fun found => (bracketAt_text found).2
  by_cases head : text.head? = some '!'
  · obtain ⟨text, rfl⟩ : ∃ rest, text = '!' :: rest := by
      cases text with
      | nil => cases head
      | cons c rest =>
        cases head
        exact ⟨rest, rfl⟩
    have split := closeClass_utf8 [byte '!'] true text
    rw [utf8_cons_ascii bang]
    simp only [splitClass, bracket, List.head?_cons, if_true, List.drop_succ_cons, List.drop_zero, List.tail_cons]
    refine split.trans ?_
    cases found : bracketAt true text with
    | none => rfl
    | some p =>
      obtain ⟨b, after⟩ := p
      simp only [Option.map_some, Bracket.text, sign found, if_true, utf8_cons_ascii bang, List.singleton_append]
  · have unsigned : ¬ (utf8 text).head? = some (byte '!') := fun signed => head ((head_utf8 bang _).mp signed)
    have split := closeClass_utf8 [] false text
    simp only [splitClass, bracket, if_neg unsigned, if_neg head, List.drop_zero]
    refine split.trans ?_
    cases found : bracketAt false text with
    | none => rfl
    | some p =>
      obtain ⟨b, after⟩ := p
      simp [Bracket.text, sign found]

theorem classText_bracket (b : Bracket) (plain : b.negated = false → b.first ≠ '!') :
    Token.emit (.cls b) = '[' :: (classText (utf8 b.text) ++ [']']) := by
  have bang := ascii_bang
  have caret : Ascii '^' := by decide
  have slash : Ascii '\\' := by decide
  simp only [Token.emit, classText]
  cases sign : b.negated with
  | true =>
    simp only [Bracket.text, sign, if_true, head_utf8 bang, List.head?_cons]
    rw [utf8_cons_ascii bang, List.tail_cons, ← utf8_cons_ascii caret, runes_utf8]
    rfl
  | false =>
    have first := plain sign
    simp only [Bracket.text, sign, Bool.false_eq_true, if_false, head_utf8 bang, head_utf8 caret, Bracket.body, List.head?_cons,
      Option.some.injEq, if_neg first]
    split
    · rw [← utf8_cons_ascii slash, runes_utf8]
      rfl
    · rw [runes_utf8]
      rfl

theorem bracket_unsigned (found : bracket text = some (b, after)) (unsigned : b.negated = false) : b.first ≠ '!' := by
  intro bang
  have whole := bracket_text found
  rw [Bracket.text, if_neg (by rw [unsigned]; decide), Bracket.body, bang] at whole
  have signed : text.head? = some '!' := by rw [whole]; rfl
  rw [bracket, if_pos signed] at found
  rw [(bracketAt_text found).2] at unsigned
  cases unsigned

theorem translateLoop_unclosed (none : splitClass text = none) :
    translateLoop (byte '[' :: text) = '\\' :: '[' :: translateLoop text := by
  rw [translateLoop, if_neg (by decide), if_neg (by decide), if_pos rfl]
  split
  · rfl
  · rename_i found
    rw [none] at found
    cases found

theorem translateLoop_class (split : splitClass text = some (stuff, rest)) :
    translateLoop (byte '[' :: text) = '[' :: (classText stuff ++ ']' :: translateLoop rest) := by
  rw [translateLoop, if_neg (by decide), if_neg (by decide), if_pos rfl]
  split
  · rename_i found
    rw [split] at found
    cases found
  · rename_i found
    rw [split] at found
    cases found
    rfl

theorem translateLoop_other (star : c ≠ byte '*') (any : c ≠ byte '?') (opens : c ≠ byte '[') (text : List UInt8) :
    translateLoop (c :: text) = quoteMeta (latin c) ++ translateLoop text := by
  rw [translateLoop, if_neg star, if_neg any, if_neg opens]

theorem translateLoop_wide (wide : ¬ Ascii c) (text : List UInt8) :
    translateLoop (String.utf8EncodeChar c ++ text) = Token.emit (.lit c) ++ translateLoop text := by
  -- each byte of the character falls to the last branch
  have bytes : ∀ bs, (∀ b ∈ bs, b ∈ String.utf8EncodeChar c) →
      translateLoop (bs ++ text) = (bs.flatMap fun b => quoteMeta (latin b)) ++ translateLoop text := by
    intro bs known
    induction bs with
    | nil => rfl
    | cons b bs ih =>
      have other : ∀ d, Ascii d → b ≠ byte d := fun d => ne_byte_of_high wide (known b List.mem_cons_self)
      rw [List.cons_append, translateLoop_other (other _ (by decide)) (other _ (by decide)) (other _ (by decide)),
        ih fun b member => known b (List.mem_cons_of_mem _ member), List.flatMap_cons, List.append_assoc]
  exact bytes _ fun _ member => member

theorem translateLoop_utf8 (pat : List Char) : translateLoop (utf8 pat) = (tokens pat).flatMap Token.emit := by
  have star : Ascii '*' := by decide
  have any : Ascii '?' := by decide
  have opens : Ascii '[' := by decide
  fun_induction tokens pat with
  | case1 =>
    rw [show utf8 [] = [] from rfl, translateLoop]
    rfl
  | case2 text ih =>
    rw [utf8_cons_ascii star, translateLoop, if_pos rfl, ih]
    rfl
  | case3 text _ ih =>
    rw [utf8_cons_ascii any, translateLoop, if_neg (by decide), if_pos rfl, ih]
    rfl
  | case4 text found _ _ ih =>
    have unclosed : splitClass (utf8 text) = none := by
      rw [splitClass_utf8, found]
      rfl
    rw [utf8_cons_ascii opens, translateLoop_unclosed unclosed, ih, List.flatMap_cons]
    rfl
  | case5 text b after found _ _ ih =>
    have split : splitClass (utf8 text) = some (utf8 b.text, utf8 after) := by
      rw [splitClass_utf8, found]
      rfl
    rw [utf8_cons_ascii opens, translateLoop_class split, ih, List.flatMap_cons, classText_bracket b (bracket_unsigned found)]
    simp
  | case6 c text notStar notAny notOpen ih =>
    rw [List.flatMap_cons]
    by_cases narrow : Ascii c
    · have other : ∀ {d}, Ascii d → ¬ c = d → byte c ≠ byte d := fun ascii differs same => differs (byte_inj narrow ascii same)
      rw [utf8_cons_ascii narrow, translateLoop_other (other star notStar) (other any notAny) (other opens notOpen), ih]
      simp only [Token.emit, encode_ascii narrow, List.flatMap_cons, List.flatMap_nil, List.append_nil]
    · rw [utf8_cons, translateLoop_wide narrow, ih]

/-- What a class is read from, item by item: the rest of it where a character or a range begins. -/
def items : List Char → List (List Char)
  | [] => []
  | lo :: text =>
    (lo :: text) ::
      match text with
      | '-' :: _ :: rest => items rest
      | rest => items rest

/-- A class that RE2 can read: its ranges are in order, and no item begins like the name of a POSIX class that a colon and
a bracket close, here or later. -/
def Readable (later : Bool) (body : List Char) : Prop :=
  (∀ r ∈ ranges body, r.1 ≤ r.2) ∧ ∀ t ∈ items body, ['[', ':'] <+: t → later = false ∧ (t.drop 2).getLast? ≠ some ':'
deriving Decidable

/-- No item of the class is the name of a POSIX class up to the bracket. -/
def Unposix (body : List Char) : Prop := ∀ t ∈ items body, ∀ name, t = '[' :: ':' :: (name ++ [':']) → group name = none

def Token.colon : Token → Bool
  | .cls b => b.body.getLast? == some ':'
  | _ => false

def Compiles : List Token → Prop
  | [] => True
  | .cls b :: ts => Readable (ts.any Token.colon) b.body ∧ Compiles ts
  | _ :: ts => Compiles ts

/-- The parts that the source writes as they are meant: characters of one byte, and classes whose caret adds nothing. -/
def Token.Kept : Token → Prop
  | .star | .any => True
  | .lit c => Ascii c
  | .cls b => b.negated = false → b.first = '^' → InClass b.body '\\'

/-- What a part is compiled to. -/
def Token.pieces : Token → List Piece
  | .star => [.star .any]
  | .any => [.one .any]
  | .lit c => (String.utf8EncodeChar c).map fun b => .one (.single (latin b))
  | .cls b =>
    let extra := if b.negated = false ∧ b.first = '^' then [('\\', '\\')] else []
    [.one ⟨b.negated, extra ++ ranges b.body⟩]

section Reading

theorem classChar_escapeRune (r : Char) (rest : List Char) : classChar (escapeRune r ++ rest) = .ok (r, rest) := by
  by_cases slash : r = '\\'
  · subst slash
    rfl
  · rw [escapeRune, if_neg slash, List.singleton_append, classChar, if_neg slash]

theorem head_escapeRune (r : Char) (rest : List Char) : (escapeRune r ++ rest).head? = some r := by
  by_cases slash : r = '\\'
  · subst slash
    rfl
  · rw [escapeRune, if_neg slash]
    rfl

/-- The text of a class from some place on. -/
def classRest (body rest : List Char) : List Char := body.flatMap escapeRune ++ ']' :: rest

theorem classRest_cons (r : Char) (body rest : List Char) : classRest (r :: body) rest = escapeRune r ++ classRest body rest := by
  rw [classRest, List.flatMap_cons, List.append_assoc]
  rfl

theorem head_classRest (r : Char) (body rest : List Char) : (classRest (r :: body) rest).head? = some r := by
  rw [classRest_cons, head_escapeRune]

def closes (t : List Char) : Bool := (untilClose t).isSome

theorem closes_cons (c : Char) (rest : List Char) :
    closes (c :: rest) = ((c == ':' && rest.head? == some ']') || closes rest) := by
  simp only [closes, untilClose]
  split
  · rename_i here
    simp [here.1, here.2]
  · rename_i other
    rw [Option.isSome_map]
    by_cases colon : c = ':'
    · have open_ : rest.head? ≠ some ']' := fun head => other ⟨colon, head⟩
      simp [open_]
    · simp [colon]

theorem closes_skip (other : c ≠ ':') (rest : List Char) : closes (c :: rest) = closes rest := by
  simp [closes_cons, other]

theorem closes_escapeRune (r : Char) (rest : List Char) :
    closes (escapeRune r ++ rest) = ((r == ':' && rest.head? == some ']') || closes rest) := by
  by_cases slash : r = '\\'
  · subst slash
    exact (closes_skip (by decide) _).trans (closes_skip (by decide) rest)
  · rw [escapeRune, if_neg slash, List.singleton_append, closes_cons]

theorem closes_classRest (body rest : List Char) (closed : ']' ∉ body.tail) :
    closes (classRest body rest) = (body.getLast? == some ':' || closes rest) := by
  induction body with
  | nil => exact closes_skip (by decide) rest
  | cons r body ih =>
    have later := ih fun member => closed (List.mem_of_mem_tail member)
    rw [classRest_cons, closes_escapeRune, later]
    cases body with
    | nil => simp [classRest]
    | cons d body =>
      have open_ : d ≠ ']' := fun same => closed (same ▸ List.mem_cons_self)
      rw [head_classRest, List.getLast?_cons_cons]
      simp [open_]

theorem head_quoteMeta (c : Char) (rest : List Char) (special : d ∈ metachars) (plain : d ≠ '\\') :
    (quoteMeta c ++ rest).head? ≠ some d := by
  unfold quoteMeta
  split
  · simp [plain.symm]
  · rename_i ordinary
    rintro ⟨⟩
    exact ordinary special

theorem head_emit (t : Token) (rest : List Char) (bare : d = '*' ∨ d = ']') : (t.emit ++ rest).head? ≠ some d := by
  cases t with
  | star => rcases bare with rfl | rfl <;> simp [Token.emit]
  | any => rcases bare with rfl | rfl <;> simp [Token.emit]
  | lit c =>
    obtain ⟨b, bs, encoded⟩ := List.exists_cons_of_ne_nil (String.utf8EncodeChar_ne_nil (c := c))
    rw [Token.emit, encoded, List.flatMap_cons, List.append_assoc]
    rcases bare with rfl | rfl <;> exact head_quoteMeta _ _ (by decide) (by decide)
  | cls b => rcases bare with rfl | rfl <;> simp [Token.emit]

theorem head_tokens (ts : List Token) (bare : d = '*' ∨ d = ']') : (ts.flatMap Token.emit ++ ['\\', 'z']).head? ≠ some d := by
  cases ts with
  | nil => rcases bare with rfl | rfl <;> simp
  | cons t ts =>
    rw [List.flatMap_cons, List.append_assoc]
    exact head_emit t _ bare

theorem closes_quoteMeta (c : Char) (rest : List Char)
    (open_ : rest.head? ≠ some ']') : closes (quoteMeta c ++ rest) = closes rest := by
  unfold quoteMeta
  split
  · rename_i special
    have other : c ≠ ':' := by
      rintro rfl
      exact absurd special (by decide)
    exact (closes_skip (by decide) _).trans (closes_skip other rest)
  · rw [List.singleton_append, closes_cons]
    simp [open_]

theorem emit_cls (b : Bracket) (rest : List Char) : Token.emit (.cls b) ++ rest =
    '[' :: ((if b.negated then ['^'] else if b.first = '^' then ['\\', '\\'] else []) ++ classRest b.body rest) := by
  simp only [Token.emit, classRest, List.cons_append, List.append_assoc, List.nil_append]

theorem closes_tokens (ts : List Token) : closes (ts.flatMap Token.emit ++ ['\\', 'z']) = ts.any Token.colon := by
  induction ts with
  | nil => decide
  | cons t ts ih =>
    have open_ := head_tokens ts (.inr rfl)
    rw [List.flatMap_cons, List.append_assoc, List.any_cons, ← ih]
    generalize ts.flatMap Token.emit ++ ['\\', 'z'] = rest at open_ ⊢
    cases t with
    | star => exact (closes_skip (by decide) _).trans (closes_skip (by decide) rest)
    | any => exact closes_skip (by decide) rest
    | lit c =>
      have bytes (bs : List UInt8) : closes ((bs.flatMap fun b => quoteMeta (latin b)) ++ rest) = closes rest ∧
          ((bs.flatMap fun b => quoteMeta (latin b)) ++ rest).head? ≠ some ']' := by
        induction bs with
        | nil => exact ⟨rfl, open_⟩
        | cons b bs ih =>
          rw [List.flatMap_cons, List.append_assoc]
          exact ⟨(closes_quoteMeta _ _ ih.2).trans ih.1, head_quoteMeta _ _ (by decide) (by decide)⟩
      exact (bytes _).1
    | cls b =>
      have class_ := closes_classRest b.body rest b.closed
      rw [emit_cls, closes_skip (by decide), Token.colon, ← class_]
      split
      · exact closes_skip (by decide) _
      · split
        · exact (closes_skip (by decide) _).trans (closes_skip (by decide) _)
        · rfl

theorem named_isSome (lo : Char) (text rest : List Char) (closed : ']' ∉ text) :
    (named (classRest (lo :: text) rest)).isSome = true ↔
      ['[', ':'] <+: lo :: text ∧ ((text.drop 1).getLast? = some ':' ∨ closes rest = true) := by
  by_cases opens : lo = '['
  · subst opens
    cases text with
    | nil => simp [classRest, escapeRune, named]
    | cons d text =>
      by_cases colon : d = ':'
      · subst colon
        have inner := closes_classRest text rest fun member => closed (List.mem_cons_of_mem _ (List.mem_of_mem_tail member))
        have read : (named (classRest ('[' :: ':' :: text) rest)).isSome = closes (classRest text rest) := rfl
        rw [read, inner]
        simp
      · have unread : named (classRest ('[' :: d :: text) rest) = none := by
          rw [classRest_cons, classRest_cons]
          show named ('[' :: (escapeRune d ++ classRest text rest)) = none
          have head := head_escapeRune d (classRest text rest)
          generalize escapeRune d ++ classRest text rest = t at head
          unfold named
          split
          · rename_i same
            cases same
            exact absurd (Option.some.inj head).symm colon
          · rfl
        simp [unread, Ne.symm colon]
  · have unread : named (classRest (lo :: text) rest) = none := by
      have head := head_classRest lo text rest
      unfold named
      split
      · rename_i same
        rw [same] at head
        exact absurd (Option.some.inj head).symm opens
      · rfl
    simp [unread, Ne.symm opens]

theorem group_plain (known : group name = some rs) : ']' ∉ name ∧ '\\' ∉ name := by
  have table : ∀ p ∈ posix, ']' ∉ p.1 ∧ '\\' ∉ p.1 := by decide
  have found : ∀ {n rs}, posix.lookup n = some rs → ']' ∉ n ∧ '\\' ∉ n := by
    intro n rs known
    obtain ⟨p, member, same⟩ : ∃ p ∈ posix, p.1 = n := by
      rw [List.lookup_eq_some_iff] at known
      obtain ⟨l, r, whole, -⟩ := known
      exact ⟨(n, rs), whole ▸ List.mem_append_right _ List.mem_cons_self, rfl⟩
    exact same ▸ table p member
  unfold group at known
  split at known
  · rename_i head
    obtain ⟨_, looked, _⟩ := Option.map_eq_some_iff.mp known
    cases name with
    | nil => cases head
    | cons c name =>
      cases head
      have := found looked
      simpa using this
  · exact found known

theorem flatMap_escapeRune {text : List Char} (straight : '\\' ∉ text) : text.flatMap escapeRune = text := by
  induction text with
  | nil => rfl
  | cons r text ih =>
    obtain ⟨here, later⟩ := not_or.mp (mt List.mem_cons.mpr straight)
    rw [List.flatMap_cons, ih later, escapeRune, if_neg (Ne.symm here), List.singleton_append]

/-- Of the texts that RE2 may take for a name, one that it knows ends with the class. -/
theorem group_named (unposix : Unposix (lo :: text)) (closed : ']' ∉ text)
    (read : named (classRest (lo :: text) rest) = some (name, after)) :
    group name = none := by
  cases known : group name with
  | none => rfl
  | some rs =>
    obtain ⟨plain, straight⟩ := group_plain known
    have whole := named_eq read
    obtain ⟨prefix_, -⟩ := (named_isSome lo text rest closed).mp (by rw [read]; rfl)
    obtain ⟨text, rfl, rfl⟩ : ∃ rest, lo = '[' ∧ text = ':' :: rest := by
      obtain ⟨rest, same⟩ := prefix_
      cases same
      exact ⟨rest, rfl, rfl⟩
    have inner : classRest text rest = name ++ ':' :: ']' :: after := List.cons.inj (List.cons.inj whole).2 |>.2
    have unslashed : ']' ∉ text.flatMap escapeRune := by
      intro member
      obtain ⟨r, inText, inRune⟩ := List.mem_flatMap.mp member
      unfold escapeRune at inRune
      split at inRune
      · simp at inRune
      · exact closed (List.mem_cons_of_mem _ (List.mem_singleton.mp inRune ▸ inText))
    have upTo := congrArg (List.takeWhile (· != ']')) inner
    rw [classRest, show name ++ ':' :: ']' :: after = (name ++ [':']) ++ ']' :: after by simp,
      List.takeWhile_append_of_pos (by intro c member; simp only [bne_iff_ne]; rintro rfl; exact unslashed member),
      List.takeWhile_append_of_pos (by intro c member; simp only [bne_iff_ne]; rintro rfl; simp [plain] at member)] at upTo
    simp only [List.takeWhile_cons, bne_self_eq_false, Bool.false_eq_true, if_false, List.append_nil] at upTo
    have none_ : '\\' ∉ text := by
      intro member
      have slash : '\\' ∈ text.flatMap escapeRune := List.mem_flatMap.mpr ⟨_, member, by decide⟩
      rw [upTo] at slash
      simp [straight] at slash
    rw [flatMap_escapeRune none_] at upTo
    exact absurd (unposix _ List.mem_cons_self name (by rw [← upTo])) (by rw [known]; simp)

theorem classRange_pair (open_ : hi ≠ ']') (body rest : List Char) :
    classRange (classRest (lo :: '-' :: hi :: body) rest) =
      if hi < lo then .error .invalidCharRange else .ok ((lo, hi), classRest body rest) := by
  have tail : classRest ('-' :: hi :: body) rest = '-' :: (escapeRune hi ++ classRest body rest) := by
    rw [classRest_cons, classRest_cons]
    rfl
  have head := head_escapeRune hi (classRest body rest)
  have filled : escapeRune hi ++ classRest body rest ≠ [] := by
    intro none
    rw [none] at head
    cases head
  rw [classRange, classRest_cons, classChar_escapeRune, tail]
  have unclosed : (escapeRune hi ++ classRest body rest).head? ≠ some ']' := by
    rw [head]
    exact fun same => open_ (Option.some.inj same)
  simp only [List.head?_cons, List.tail_cons]
  rw [if_pos ⟨trivial, filled, unclosed⟩]
  simp only [classChar_escapeRune]

theorem classRange_single (alone : ∀ hi more, body ≠ '-' :: hi :: more) (rest : List Char) :
    classRange (classRest (lo :: body) rest) = .ok ((lo, lo), classRest body rest) := by
  rw [classRange, classRest_cons, classChar_escapeRune]
  have single : ¬ ((classRest body rest).head? = some '-' ∧ (classRest body rest).tail ≠ [] ∧
      (classRest body rest).tail.head? ≠ some ']') := by
    rintro ⟨minus, _, open_⟩
    cases body with
    | nil => cases minus
    | cons d body =>
      rw [classRest_cons, head_escapeRune] at minus
      cases minus
      cases body with
      | nil => exact open_ rfl
      | cons hi more => exact alone hi more rfl
  simp only [if_neg single]

theorem classItem_classRest (lo : Char) (text rest : List Char) (closed : ']' ∉ text) (unposix : Unposix (lo :: text)) :
    classItem (classRest (lo :: text) rest) =
      if ['[', ':'] <+: lo :: text → closes rest = false ∧ (text.drop 1).getLast? ≠ some ':' then
        (classRange (classRest (lo :: text) rest)).map fun p => ([p.1], p.2)
      else .error .invalidCharRange := by
  have reads := named_isSome lo text rest closed
  unfold classItem
  split
  · rename_i none_
    rw [none_] at reads
    rw [if_pos]
    intro opens
    have unclosed : ¬ ((text.drop 1).getLast? = some ':' ∨ closes rest = true) :=
      fun later => by simpa using reads.mpr ⟨opens, later⟩
    exact ⟨Bool.eq_false_iff.mpr fun later => unclosed (.inr later), fun last => unclosed (.inl last)⟩
  · rename_i name after found
    rw [found] at reads
    obtain ⟨opens, later⟩ := reads.mp rfl
    rw [group_named unposix closed found, if_neg]
    intro free
    obtain ⟨unclosed, last⟩ := free opens
    rcases later with here | there
    · exact last here
    · rw [unclosed] at there
      cases there

theorem classRanges_next {text more : List Char} {r : Char × Char} (closed : ']' ∉ text) (unposix : Unposix (lo :: text))
    (leads : lo = ']' → first = true) (begins : items (lo :: text) = (lo :: text) :: items more)
    (pairs : ranges (lo :: text) = r :: ranges more)
    (item : classRange (classRest (lo :: text) rest) =
      if r.2 < r.1 then .error .invalidCharRange else .ok (r, classRest more rest))
    (later : classRanges false (classRest more rest) =
      if Readable (closes rest) more then .ok (ranges more, rest) else .error .invalidCharRange) :
    classRanges first (classRest (lo :: text) rest) =
      if Readable (closes rest) (lo :: text) then .ok (r :: ranges more, rest) else .error .invalidCharRange := by
  have step : Readable (closes rest) (lo :: text) ↔
    (['[', ':'] <+: lo :: text → closes rest = false ∧ (text.drop 1).getLast? ≠ some ':') ∧
      ¬ r.2 < r.1 ∧ Readable (closes rest) more := by
    simp only [Readable, begins, pairs, List.forall_mem_cons, Char.not_lt, List.drop_succ_cons]
    tauto
  rw [classRanges_item (by rw [head_classRest]; exact fun head => leads (Option.some.inj head)),
    classItem_classRest lo text rest closed unposix,
    item, if_congr step rfl rfl]
  by_cases free : ['[', ':'] <+: lo :: text → closes rest = false ∧ (text.drop 1).getLast? ≠ some ':'
  · by_cases turned : r.2 < r.1
    · rw [if_pos free, if_pos turned, if_neg fun all => all.2.1 turned]
      rfl
    · have read : ((Except.ok (r, classRest more rest) : Except SyntaxError _).map fun p => ([p.1], p.2)).bind
          (fun item => (classRanges false item.2).map fun p => (item.1 ++ p.1, p.2)) =
          (classRanges false (classRest more rest)).map fun p => (r :: p.1, p.2) := rfl
      rw [if_pos free, if_neg turned, read, later]
      by_cases readable : Readable (closes rest) more
      · rw [if_pos readable, if_pos ⟨free, turned, readable⟩]
        rfl
      · rw [if_neg readable, if_neg fun all => readable all.2.2]
        rfl
  · rw [if_neg free, if_neg fun all => free all.1]
    rfl

theorem classRanges_body (first : Bool) (body rest : List Char) (closed : ']' ∉ body.tail)
    (leads : body.head? = some ']' → first = true)
    (filled : first = true → body ≠ []) (unposix : Unposix body) :
    classRanges first (classRest body rest) =
      if Readable (closes rest) body then .ok (ranges body, rest) else .error .invalidCharRange := by
  -- what is left of the class has no bracket at all
  have later : ∀ {more : List Char}, ']' ∉ more →
      ']' ∉ more.tail ∧ (more.head? = some ']' → false = true) ∧ (false = true → more ≠ []) := by
    intro more none
    refine ⟨fun member => none (List.mem_of_mem_tail member), fun head => ?_, fun never => by cases never⟩
    exact absurd (List.mem_of_head? head) none
  fun_induction ranges body generalizing first with
  | case1 =>
    cases first with
    | true => exact absurd rfl (filled rfl)
    | false =>
      rw [if_pos ⟨by simp [ranges], by simp [items]⟩]
      exact classRanges_close rest
  | case2 lo hi more ih =>
    have unclosed : hi ≠ ']' := by
      rintro rfl
      exact closed (List.mem_cons_of_mem _ List.mem_cons_self)
    have none : ']' ∉ more := fun member => closed (List.mem_cons_of_mem _ (List.mem_cons_of_mem _ member))
    obtain ⟨closed', leads', filled'⟩ := later none
    exact classRanges_next closed unposix (fun same => leads (same ▸ rfl)) rfl rfl (classRange_pair unclosed more rest)
      (ih false closed' leads' filled' fun t member => unposix t (List.mem_cons_of_mem _ member))
  | case3 lo more alone ih =>
    obtain ⟨closed', leads', filled'⟩ := later closed
    have begins : items (lo :: more) = (lo :: more) :: items more := by
      rw [items]
      exact alone
    have pairs : ranges (lo :: more) = (lo, lo) :: ranges more := by
      rw [ranges]
      exact alone
    refine classRanges_next closed unposix (fun same => leads (same ▸ rfl)) begins pairs ?_
      (ih false closed' leads' filled' fun t member => unposix t (begins ▸ List.mem_cons_of_mem _ member))
    rw [if_neg (Char.lt_irrefl lo)]
    exact classRange_single alone rest

/-- The caret is not read as a sign: the backslash that the source puts before it is escaped by the other one and is read
as a member. -/
theorem readable_careted (later : Bool) (rest : List Char) :
    ranges ('\\' :: '^' :: rest) = ('\\', '\\') :: ranges ('^' :: rest) ∧
      items ('\\' :: '^' :: rest) = ('\\' :: '^' :: rest) :: items ('^' :: rest) ∧
      (Readable later ('\\' :: '^' :: rest) ↔ Readable later ('^' :: rest)) := by
  refine ⟨rfl, rfl, ?_⟩
  have pairs : ranges ('\\' :: '^' :: rest) = ('\\', '\\') :: ranges ('^' :: rest) := rfl
  have begins : items ('\\' :: '^' :: rest) = ('\\' :: '^' :: rest) :: items ('^' :: rest) := rfl
  rw [Readable, Readable, pairs, begins, List.forall_mem_cons, List.forall_mem_cons]
  simp

theorem atom_cls (b : Bracket) (rest : List Char) (unposix : Unposix b.body) :
    atom true (Token.emit (.cls b) ++ rest) =
      if Readable (closes rest) b.body then
        .ok (.piece (.one ⟨b.negated, (if b.negated = false ∧ b.first = '^' then [('\\', '\\')] else []) ++ ranges b.body⟩), rest)
      else .error .invalidCharRange := by
  have opens (text : List Char) : atom true ('[' :: text) = (charClass text).map fun p => (.piece (.one p.1), p.2) := by
    rw [atom, if_neg (by decide), if_pos rfl]
  have read (body : List Char) (closed : ']' ∉ body.tail) (filled : body ≠ []) (unposix : Unposix body) :=
    classRanges_body true body rest closed (fun _ => rfl) (fun _ => filled) unposix
  rw [emit_cls, opens]
  cases sign : b.negated with
  | true =>
    rw [if_pos rfl, List.singleton_append, charClass, if_pos List.head?_cons, List.tail_cons,
      read b.body b.closed (List.cons_ne_nil _ _) unposix]
    split <;> rfl
  | false =>
    by_cases caret : b.first = '^'
    · have body : b.body = '^' :: b.rest := by rw [Bracket.body, caret]
      obtain ⟨pairs, begins, same⟩ := readable_careted (closes rest) b.rest
      have closed : ']' ∉ ('\\' :: '^' :: b.rest).tail := by
        rw [List.tail_cons]
        simpa using b.closed
      have unposix' : Unposix ('\\' :: '^' :: b.rest) := by
        rw [Unposix, begins]
        intro t member
        rcases List.mem_cons.mp member with rfl | member
        · intro name same
          cases same
        · exact unposix t (body ▸ member)
      have text : ['\\', '\\'] ++ classRest b.body rest = classRest ('\\' :: '^' :: b.rest) rest := by
        rw [body, classRest_cons '\\']
        rfl
      rw [if_neg (by simp), if_pos caret, text, charClass, if_neg (by rw [head_classRest]; simp),
        read _ closed (List.cons_ne_nil _ _) unposix',
        pairs, if_congr same rfl rfl, ← body]
      split <;> simp [Except.map, caret]
    · rw [if_neg (by simp), if_neg caret, List.nil_append, charClass,
        if_neg (by rw [Bracket.body, head_classRest]; exact fun head => caret (Option.some.inj head)),
        read b.body b.closed (List.cons_ne_nil _ _) unposix]
      split <;> simp [Except.map, caret]

theorem atom_quoteMeta (c : Char) (rest : List Char) :
    atom true (quoteMeta c ++ rest) = .ok (.piece (.one (.single c)), rest) := by
  unfold quoteMeta
  split
  · rename_i special
    simp only [metachars, List.mem_cons, List.not_mem_nil, or_false] at special
    rcases special with rfl | rfl | rfl | rfl | rfl | rfl | rfl | rfl | rfl | rfl | rfl | rfl | rfl | rfl <;> rfl
  · rename_i ordinary
    have dot : c ≠ '.' := fun same => ordinary (same ▸ by decide)
    have opens : c ≠ '[' := fun same => ordinary (same ▸ by decide)
    have slash : c ≠ '\\' := fun same => ordinary (same ▸ by decide)
    have literal : c ∉ operators := fun known => ordinary ((by decide : operators ⊆ metachars) known)
    rw [List.singleton_append, atom, if_neg dot, if_neg opens, if_neg slash, if_neg literal]

theorem parse_lit (c : Char) (rest : List Char) (unstarred : rest.head? ≠ some '*') :
    parse true (Token.emit (.lit c) ++ rest) = (parse true rest).map ((Token.lit c).pieces.map Node.piece ++ ·) := by
  have bytes (bs : List UInt8) : parse true ((bs.flatMap fun b => quoteMeta (latin b)) ++ rest) =
        (parse true rest).map ((bs.map fun b => Node.piece (.one (.single (latin b)))) ++ ·) ∧
      ((bs.flatMap fun b => quoteMeta (latin b)) ++ rest).head? ≠ some '*' := by
    induction bs with
    | nil =>
      refine ⟨?_, unstarred⟩
      show parse true rest = (parse true rest).map ([] ++ ·)
      cases parse true rest <;> rfl
    | cons b bs ih =>
      rw [List.flatMap_cons, List.append_assoc]
      refine ⟨?_, head_quoteMeta _ _ (by decide) (by decide)⟩
      rw [parse_plain (atom_quoteMeta _ _) ih.2, ih.1]
      cases parse true rest <;> rfl
  rw [Token.emit, (bytes _).1, Token.pieces, List.map_map]
  rfl

/-- The parts are compiled one after the other up to a class that cannot be read. -/
theorem parse_tokens {ts : List Token} (unposix : ∀ b, .cls b ∈ ts → Unposix b.body) :
    (Compiles ts → parse true (ts.flatMap Token.emit ++ ['\\', 'z']) = .ok ((ts.flatMap Token.pieces).map .piece ++ [.endText])) ∧
      (¬ Compiles ts → parse true (ts.flatMap Token.emit ++ ['\\', 'z']) = .error .invalidCharRange) := by
  induction ts with
  | nil =>
    have last : parse true ['\\', 'z'] = (parse true []).map (.endText :: ·) := parse_plain rfl (by simp)
    refine ⟨fun _ => ?_, fun never => absurd trivial never⟩
    rw [List.flatMap_nil, List.nil_append, last, parse_nil]
    rfl
  | cons t ts ih =>
    have later := ih fun b member => unposix b (List.mem_cons_of_mem _ member)
    have unstarred := head_tokens ts (.inl rfl)
    have ends := closes_tokens ts
    rw [List.flatMap_cons, List.append_assoc, List.flatMap_cons, List.map_append, List.append_assoc]
    generalize ts.flatMap Token.emit ++ ['\\', 'z'] = rest at later unstarred ends ⊢
    have follows (here : parse true (t.emit ++ rest) = (parse true rest).map (t.pieces.map Node.piece ++ ·))
      (tail : Compiles (t :: ts) ↔ Compiles ts) :
        (Compiles (t :: ts) →
          parse true (t.emit ++ rest) = .ok (t.pieces.map Node.piece ++ ((ts.flatMap Token.pieces).map .piece ++ [.endText]))) ∧
          (¬ Compiles (t :: ts) → parse true (t.emit ++ rest) = .error .invalidCharRange) := by
      rw [tail, here]
      exact ⟨fun all => by rw [later.1 all]; rfl, fun bad => by rw [later.2 bad]; rfl⟩
    cases t with
    | star => exact follows (parse_star rfl) Iff.rfl
    | any => exact follows (parse_plain rfl unstarred) Iff.rfl
    | lit c => exact follows (parse_lit c rest unstarred) Iff.rfl
    | cls b =>
      have read := atom_cls b rest (unposix b List.mem_cons_self)
      rw [ends] at read
      by_cases readable : Readable (ts.any Token.colon) b.body
      · rw [if_pos readable] at read
        exact follows (parse_plain read unstarred) (and_iff_right readable)
      · rw [if_neg readable] at read
        exact ⟨fun all => absurd all.1 readable, fun _ => parse_error read (by simp [Token.emit])⟩

theorem compile_anchored (pat : List Char) : compile (fnmatchTranslate (utf8 pat)) =
    (parse true ((tokens pat).flatMap Token.emit ++ ['\\', 'z'])).map (.beginText :: ·) := by
  have anchored : compile (fnmatchTranslate (utf8 pat)) =
      parse true ('\\' :: 'A' :: ((tokens pat).flatMap Token.emit ++ ['\\', 'z'])) := by
    rw [fnmatchTranslate, translateLoop_utf8, List.append_assoc]
    rfl
  have begin_ : atom true ('\\' :: 'A' :: ((tokens pat).flatMap Token.emit ++ ['\\', 'z'])) =
      .ok (.beginText, (tokens pat).flatMap Token.emit ++ ['\\', 'z']) := rfl
  rw [anchored, parse_plain begin_ (head_tokens _ (.inl rfl))]

end Reading

section Meaning

theorem any_ranges (rs : List (Char × Char)) (c : Char) :
    (rs.any fun r => r.1 ≤ c && c ≤ r.2) = true ↔ ∃ r ∈ rs, r.1 ≤ c ∧ c ≤ r.2 := by
  simp only [List.any_eq_true, Bool.and_eq_true, decide_eq_true_eq]

theorem mem_signed (negated : Bool) (rs : List (Char × Char)) (c : Char) :
    (CharSet.mem ⟨negated, rs⟩ c = true) ↔ ((∃ r ∈ rs, r.1 ≤ c ∧ c ≤ r.2) ↔ negated = false) := by
  rw [← any_ranges]
  cases negated <;> cases known : rs.any fun r => r.1 ≤ c && c ≤ r.2 <;> simp [CharSet.mem, known]

theorem mem_single (c d : Char) : (CharSet.single c).mem d = true ↔ d = c := by
  rw [CharSet.single, mem_signed]
  simp only [List.mem_singleton, exists_eq_left, iff_true]
  exact ⟨fun both => Char.le_antisymm both.2 both.1, fun same => same ▸ ⟨Char.le_refl _, Char.le_refl _⟩⟩

theorem star_any_language : KStar.kstar CharSet.any.language = ⊤ := by
  refine top_unique fun w _ => ?_
  refine Language.mem_kstar.mpr ⟨w.map ([·]), ?_, ?_⟩
  · induction w with
    | nil => rfl
    | cons c w ih => exact congrArg (c :: ·) (ih trivial)
  · intro y member
    obtain ⟨c, _, rfl⟩ := List.mem_map.mp member
    exact ⟨c, rfl, rfl⟩

def Token.part : Token → Option (Set Char)
  | .star => none
  | .any => some Set.univ
  | .lit c => some {c}
  | .cls b => some {c | InClass b.body c ↔ b.negated = false}

theorem language_part (t : Token) : t.language = partLanguage t.part := by
  cases t with
  | star => rfl
  | any =>
    ext w
    exact ⟨fun ⟨c, same⟩ => ⟨c, trivial, same⟩, fun ⟨c, _, same⟩ => ⟨c, same⟩⟩
  | lit c =>
    ext w
    exact ⟨fun same => ⟨c, rfl, same⟩, fun ⟨d, here, same⟩ => by rw [Set.mem_singleton_iff.mp here] at same; exact same⟩
  | cls b =>
    ext w
    exact ⟨fun ⟨c, same, member⟩ => ⟨c, member, same⟩, fun ⟨c, member, same⟩ => ⟨c, same, member⟩⟩

def Token.written : Token → List (Option (Set Char))
  | .lit c => (String.utf8EncodeChar c).map fun b => some {latin b}
  | .cls b => [some {c | (b.negated = false ∧ b.first = '^' ∧ c = '\\' ∨ InClass b.body c) ↔ b.negated = false}]
  | t => [t.part]

theorem language_pieces (t : Token) : t.pieces.map Piece.language = t.written.map partLanguage := by
  have one (s : CharSet) (chars : Set Char) (same : ∀ c, s.mem c = true ↔ c ∈ chars) :
      s.language = partLanguage (some chars) := by
    ext w
    exact ⟨fun ⟨c, member, single⟩ => ⟨c, (same c).mp member, single⟩,
      fun ⟨c, member, single⟩ => ⟨c, (same c).mpr member, single⟩⟩
  cases t with
  | star => exact congrArg ([·]) star_any_language
  | any => exact congrArg ([·]) (one .any Set.univ fun _ => ⟨fun _ => trivial, fun _ => rfl⟩)
  | lit c =>
    simp only [Token.pieces, Token.written, List.map_map]
    exact List.map_congr_left fun b _ => one _ _ fun d => (mem_single (latin b) d).trans Set.mem_singleton_iff.symm
  | cls b =>
    refine congrArg ([·]) (one _ _ fun c => ?_)
    rw [mem_signed, Set.mem_ofPred_eq]
    refine iff_congr ?_ Iff.rfl
    simp only [List.mem_append, or_and_right, exists_or, InClass]
    refine or_congr ?_ Iff.rfl
    split
    · rename_i careted
      simp only [List.mem_singleton, exists_eq_left, careted, true_and]
      exact ⟨fun both => Char.le_antisymm both.2 both.1, fun same => same ▸ ⟨Char.le_refl _, Char.le_refl _⟩⟩
    · rename_i other
      simp only [List.not_mem_nil, false_and, exists_false, false_iff, not_and]
      exact fun plain caret => absurd ⟨plain, caret⟩ other

theorem written_kept {t : Token} (kept : t.Kept) : t.written = [t.part] := by
  cases t with
  | star => rfl
  | any => rfl
  | lit c =>
    have ascii : Ascii c := kept
    simp only [Token.written, encode_ascii ascii, List.map_cons, List.map_nil, latin_byte ascii]
    rfl
  | cls b =>
    have same (c : Char) : b.negated = false ∧ b.first = '^' ∧ c = '\\' ∨ InClass b.body c ↔ InClass b.body c := by
      refine ⟨?_, .inr⟩
      rintro (⟨plain, caret, rfl⟩ | member)
      · exact kept plain caret
      · exact member
    simp only [Token.written, Token.part, same]

theorem flatMap_written {ts : List Token} (kept : ∀ t ∈ ts, t.Kept) : ts.flatMap Token.written = ts.map Token.part := by
  induction ts with
  | nil => rfl
  | cons t ts ih =>
    rw [List.flatMap_cons, written_kept (kept t List.mem_cons_self), ih fun t member => kept t (List.mem_cons_of_mem _ member)]
    rfl

def Bracket.Empty (b : Bracket) : Prop := ∀ c, ¬ (InClass b.body c ↔ b.negated = false)

theorem inClass_first {b : Bracket} (ordered : ∀ r ∈ ranges b.body, r.1 ≤ r.2) : InClass b.body b.first := by
  obtain ⟨r, rs, pairs, first⟩ : ∃ r rs, ranges b.body = r :: rs ∧ r.1 = b.first := by
    unfold Bracket.body ranges
    split <;> exact ⟨_, _, rfl, rfl⟩
  rw [pairs] at ordered
  refine ⟨r, pairs ▸ List.mem_cons_self, first ▸ Char.le_refl _, first ▸ ordered r List.mem_cons_self⟩

theorem length_written (ts : List Token) :
    (ts.map Token.part).reduceOption.length ≤ (ts.flatMap Token.written).reduceOption.length ∧
    ((ts.flatMap Token.written).reduceOption.length ≤ (ts.map Token.part).reduceOption.length → ∀ c, .lit c ∈ ts → Ascii c) := by
  have one (t : Token) : [t.part].reduceOption.length ≤ t.written.reduceOption.length ∧
      (t.written.reduceOption.length ≤ [t.part].reduceOption.length → ∀ c, t = .lit c → Ascii c) := by
    cases t with
    | lit c =>
      have bytes : (Token.lit c).written.reduceOption.length = c.utf8Size := by
        simp [Token.written, List.reduceOption, List.filterMap_map]
      have single : [(Token.lit c).part].reduceOption.length = 1 := rfl
      rw [bytes, single]
      refine ⟨Char.utf8Size_pos c, fun most d same => ?_⟩
      cases same
      have small := Char.utf8Size_eq_one_iff.mp (Nat.le_antisymm most (Char.utf8Size_pos c))
      exact Nat.lt_succ_of_le (by simpa [UInt32.le_iff_toNat_le] using small)
    | _ => exact ⟨Nat.le_refl _, fun _ c same => by cases same⟩
  induction ts with
  | nil => exact ⟨Nat.le_refl _, fun _ c never => absurd never List.not_mem_nil⟩
  | cons t ts ih =>
    obtain ⟨most, same⟩ := ih
    obtain ⟨more, single⟩ := one t
    rw [List.map_cons, List.flatMap_cons, ← List.singleton_append, List.reduceOption_append, List.reduceOption_append,
      List.length_append,
      List.length_append]
    refine ⟨by omega, fun le c member => ?_⟩
    rcases List.mem_cons.mp member with here | later
    · exact single (by omega) c here.symm
    · exact same (by omega) c later

theorem forall₂_middle {R : α → β → Prop} {l₁ l₂ : List α} {m₁ m₂ : List β} (all : List.Forall₂ R (l₁ ++ a :: l₂) (m₁ ++ b :: m₂))
    (length : l₁.length = m₁.length) : R a b := by
  induction l₁ generalizing m₁ with
  | nil =>
    obtain rfl := List.length_eq_zero_iff.mp length.symm
    exact (List.forall₂_cons.mp all).1
  | cons c l₁ ih =>
    cases m₁ with
    | nil => cases length
    | cons d m₁ => exact ih (List.forall₂_cons.mp all).2 (Nat.succ.inj length)

theorem written_nonempty {ts : List Token} (full : ¬ ∃ b, .cls b ∈ ts ∧ b.Empty) :
    (∀ s ∈ (ts.map Token.part).reduceOption, s.Nonempty) ∧
    ∀ s ∈ (ts.flatMap Token.written).reduceOption, s.Nonempty := by
  have some_ : ∀ b, .cls b ∈ ts → ∃ c, InClass b.body c ↔ b.negated = false := fun b member =>
    Classical.byContradiction fun none_ => full ⟨b, member, fun c member => none_ ⟨c, member⟩⟩
  constructor
  · intro s member
    obtain ⟨t, inTs, part⟩ := List.mem_map.mp (List.reduceOption_mem_iff.mp member)
    cases t with
    | star => cases part
    | any => cases part; exact ⟨'*', trivial⟩
    | lit c => cases part; exact ⟨c, rfl⟩
    | cls b => cases part; exact some_ b inTs
  · intro s member
    obtain ⟨t, inTs, part⟩ := List.mem_flatMap.mp (List.reduceOption_mem_iff.mp member)
    cases t with
    | star => cases List.mem_singleton.mp part
    | any => cases List.mem_singleton.mp part; exact ⟨'*', trivial⟩
    | lit c =>
      obtain ⟨b, -, same⟩ := List.mem_map.mp part
      cases same
      exact ⟨_, rfl⟩
    | cls b =>
      cases List.mem_singleton.mp part
      obtain ⟨c, known⟩ := some_ b inTs
      refine ⟨c, ?_, fun plain => .inr (known.mpr plain)⟩
      rintro (careted | member)
      · exact careted.1
      · exact known.mp member

section
variable {ts : List Token} (ordered : ∀ b, .cls b ∈ ts → ∀ r ∈ ranges b.body, r.1 ≤ r.2)
include ordered

theorem written_empty {b : Bracket} (member : .cls b ∈ ts) (empty : b.Empty) :
    some ∅ ∈ ts.map Token.part ∧ some ∅ ∈ ts.flatMap Token.written := by
  have plain : ¬ (b.negated = false ∧ b.first = '^') := fun careted =>
    empty b.first ⟨fun _ => careted.1, fun _ => inClass_first (ordered b member)⟩
  have part : (Token.cls b).part = some ∅ := congrArg some (Set.eq_empty_of_forall_notMem empty)
  have kept : (Token.cls b).Kept := fun unsigned caret => absurd ⟨unsigned, caret⟩ plain
  refine ⟨part ▸ List.mem_map_of_mem member, List.mem_flatMap.mpr ⟨_, member, ?_⟩⟩
  rw [written_kept kept, part]
  exact List.mem_singleton_self _

/-- What is written matches what is meant where nothing can match at all, or where every part is kept. -/
theorem languages_iff : ((ts.flatMap Token.written).map partLanguage).prod = ((ts.map Token.part).map partLanguage).prod ↔
    (∃ b, .cls b ∈ ts ∧ b.Empty) ∨ ∀ t ∈ ts, t.Kept := by
  constructor
  · intro same
    refine or_iff_not_imp_left.mpr fun full => ?_
    obtain ⟨meant, written⟩ := written_nonempty full
    obtain ⟨w, spells⟩ := exists_spelling meant
    have shortest : (ts.flatMap Token.written).reduceOption.length ≤ (ts.map Token.part).reduceOption.length := by
      rw [← spells.length_eq]
      exact (spells_of_mem (same ▸ mem_of_spells spells)).1
    intro t member
    cases t with
    | star => trivial
    | any => trivial
    | lit c => exact (length_written ts).2 shortest c member
    | cls b =>
      intro unsigned caret
      -- the shortest word that has the backslash in the place of the class
      obtain ⟨pre, post, rfl⟩ := List.append_of_mem member
      obtain ⟨S, single, slash⟩ : ∃ S, (Token.cls b).written = [some S] ∧ '\\' ∈ S :=
        ⟨_, rfl, fun _ => unsigned, fun _ => .inl ⟨unsigned, caret, rfl⟩⟩
      have cut : ((pre ++ .cls b :: post).flatMap Token.written).reduceOption =
          (pre.flatMap Token.written).reduceOption ++ S :: (post.flatMap Token.written).reduceOption := by
        rw [List.flatMap_append, List.flatMap_cons, single, List.reduceOption_append, List.singleton_append,
          List.reduceOption_cons_of_some]
      have cut' : ((pre ++ .cls b :: post).map Token.part).reduceOption = (pre.map Token.part).reduceOption ++
          {c | InClass b.body c ↔ b.negated = false} :: (post.map Token.part).reduceOption := by
        rw [List.map_append, List.map_cons, List.reduceOption_append, Token.part, List.reduceOption_cons_of_some]
      obtain ⟨before, first⟩ := exists_spelling fun s member => written s (cut ▸ List.mem_append_left _ member)
      obtain ⟨behind, last⟩ := exists_spelling fun s member =>
        written s (cut ▸ List.mem_append_right _ (List.mem_cons_of_mem _ member))
      have word := mem_of_spells (cut ▸ List.rel_append first (.cons slash last) :
        List.Forall₂ (· ∈ ·) (before ++ '\\' :: behind) ((pre ++ .cls b :: post).flatMap Token.written).reduceOption)
      rw [same] at word
      have lengths := first.length_eq
      have lengths' := last.length_eq
      have fewer := (length_written pre).1
      have fewer' := (length_written post).1
      rw [cut, cut', List.length_append, List.length_append, List.length_cons, List.length_cons] at shortest
      have all := (spells_of_mem word).2 (by rw [cut']; simp only [List.length_append, List.length_cons]; omega)
      rw [cut'] at all
      exact (forall₂_middle all (by omega)).mpr unsigned
  · rintro (⟨b, member, empty⟩ | kept)
    · obtain ⟨meant, written⟩ := written_empty ordered member empty
      ext w
      exact iff_of_false (no_word written) (no_word meant)
    · rw [flatMap_written kept]

end

end Meaning

section Caching

def Compiled (cache : Cache) : Prop := ∀ pat re, cache pat = some re → compile (fnmatchTranslate pat) = .ok re

/-- The cache after calls of `fnmatch` on names and patterns. -/
def cacheAfter (calls : List (List Char × List UInt8)) : Cache :=
  calls.foldl (fun cache call => (fnmatch cache call.1 call.2).2) fun _ => none

theorem compiled_fnmatch (compiled : Compiled cache) (name : List Char) (pat : List UInt8) :
    Compiled (fnmatch cache name pat).2 := by
  unfold fnmatch
  split
  · exact compiled
  · split
    · exact compiled
    · rename_i re done
      intro other re' known
      simp only at known
      by_cases same : other = pat
      · subst same
        rw [Function.update_self] at known
        cases known
        exact done
      · rw [Function.update_of_ne same] at known
        exact compiled other re' known

theorem compiled_cacheAfter (calls : List (List Char × List UInt8)) : Compiled (cacheAfter calls) := by
  have later : ∀ cache, Compiled cache → Compiled (calls.foldl (fun cache call => (fnmatch cache call.1 call.2).2) cache) := by
    induction calls with
    | nil => exact fun _ compiled => compiled
    | cons call calls ih => exact fun cache compiled => ih _ (compiled_fnmatch compiled call.1 call.2)
  exact later _ fun _ _ never => by cases never

theorem fnmatch_of_compile (compiled : Compiled cache) (done : compile (fnmatchTranslate pat) = .ok re) (name : List Char) :
    (fnmatch cache name pat).1 = matchString re name := by
  unfold fnmatch
  cases known : cache pat with
  | some re' =>
    have same := compiled pat re' known
    rw [done] at same
    cases same
    rfl
  | none => simp only [done]

end Caching

theorem Compiles.ordered {ts : List Token} (compiles : Compiles ts) : ∀ b, .cls b ∈ ts → ∀ r ∈ ranges b.body, r.1 ≤ r.2 := by
  induction ts with
  | nil => exact fun b never => absurd never List.not_mem_nil
  | cons t ts ih =>
    intro b member
    cases t with
    | cls b' =>
      rcases List.mem_cons.mp member with here | later
      · cases here
        exact compiles.1.1
      · exact ih compiles.2 b later
    | _ => exact ih compiles b ((List.mem_cons.mp member).resolve_left (by simp))

/-- Where no class ends like the name of a POSIX class, the expression compiles and `fnmatch` answers what the pattern
stands for, whatever was asked before, exactly if every class can be read and every part is written as it is meant or
nothing matches at all. -/
theorem fnmatch_glob (pat : List Char) (unposix : ∀ b, .cls b ∈ tokens pat → Unposix b.body) :
    ((∃ re, compile (fnmatchTranslate (utf8 pat)) = .ok re) ∧
        ∀ calls name, (fnmatch (cacheAfter calls) name (utf8 pat)).1 = true ↔ Glob pat name) ↔
      Compiles (tokens pat) ∧ ((∃ b, .cls b ∈ tokens pat ∧ b.Empty) ∨ ∀ t ∈ tokens pat, t.Kept) := by
  obtain ⟨reads, fails⟩ := parse_tokens unposix
  have whole := compile_anchored pat
  by_cases compiles : Compiles (tokens pat)
  · rw [reads compiles] at whole
    have meant : ((tokens pat).map Token.part).map partLanguage = (tokens pat).map Token.language := by
      rw [List.map_map]
      exact List.map_congr_left fun t _ => (language_part t).symm
    have written : ((tokens pat).flatMap Token.pieces).map Piece.language =
      ((tokens pat).flatMap Token.written).map partLanguage := by
      rw [List.map_flatMap, List.map_flatMap]
      exact congrArg (fun f => List.flatMap f (tokens pat)) (funext language_pieces)
    have answer (calls : List (List Char × List UInt8)) (name : List Char) :
      (fnmatch (cacheAfter calls) name (utf8 pat)).1 = true ↔
        name ∈ (((tokens pat).flatMap Token.written).map partLanguage).prod := by
      rw [fnmatch_of_compile (compiled_cacheAfter calls) whole, matchString_anchored, written]
    rw [← languages_iff compiles.ordered, meant]
    constructor
    · intro right
      exact ⟨compiles, by ext name; exact (answer [] name).symm.trans (right.2 [] name)⟩
    · intro right
      exact ⟨⟨_, whole⟩, fun calls name => by rw [answer, right.2]; rfl⟩
  · rw [fails compiles] at whole
    refine iff_of_false (fun right => ?_) fun right => compiles right.1
    obtain ⟨re, done⟩ := right.1
    rw [whole] at done
    cases done

/-- A star, two characters and a class that is negated. -/
def binaries : List Char := ['*', '.', 'b', '[', '!', 'a', '-', 'c', ']']

theorem tokens_binaries : tokens binaries = [.star, .lit '.', .lit 'b', .cls ⟨true, 'a', ['-', 'c'], by decide⟩] := by
  decide +kernel

theorem fnmatch_glob_binaries :
    (fnmatch (cacheAfter [([], utf8 binaries)]) ['d', '/', 'x', '.', 'b', 'é'] (utf8 binaries)).1 = true ∧
      Glob binaries ['d', '/', 'x', '.', 'b', 'é'] ∧ ¬ Glob binaries ['x', '.', 'b', 'b'] := by
  have unposix : ∀ b, .cls b ∈ tokens binaries → Unposix b.body := by
    rw [tokens_binaries]
    intro b member
    obtain rfl : b = ⟨true, 'a', ['-', 'c'], by decide⟩ := by simpa using member
    intro t member name same
    obtain rfl : t = ['a', '-', 'c'] := by simpa [items, Bracket.body] using member
    cases same
  have kept : Compiles (tokens binaries) ∧ ∀ t ∈ tokens binaries, t.Kept := by
    rw [tokens_binaries]
    refine ⟨⟨by decide, trivial⟩, fun t member => ?_⟩
    simp only [List.mem_cons, List.not_mem_nil, or_false] at member
    rcases member with rfl | rfl | rfl | rfl
    · trivial
    · exact (by decide : Ascii '.')
    · exact (by decide : Ascii 'b')
    · exact fun never => by cases never
  obtain ⟨-, right⟩ := (fnmatch_glob binaries unposix).mpr ⟨kept.1, .inr kept.2⟩
  have answers : (fnmatch (cacheAfter [([], utf8 binaries)]) ['d', '/', 'x', '.', 'b', 'é'] (utf8 binaries)).1 = true := by
    decide +kernel
  have refuses : (fnmatch (cacheAfter []) ['x', '.', 'b', 'b'] (utf8 binaries)).1 ≠ true := by decide +kernel
  refine ⟨answers, ?_, ?_⟩
  · exact (right [([], utf8 binaries)] ['d', '/', 'x', '.', 'b', 'é']).mp answers
  · exact fun glob => refuses ((right [] ['x', '.', 'b', 'b']).mpr glob)

theorem glob_single (alone : tokens pat = [t]) : Glob pat name ↔ name ∈ t.language := by
  rw [Glob, alone, List.map_singleton, List.prod_singleton]

/-- A character beyond ASCII is not matched by itself, a class that begins with a caret also has the backslash, and a
range that is turned around makes the whole expression invalid. -/
theorem fnmatch_diverges :
    (Glob ['é'] ['é'] ∧ (fnmatch (cacheAfter []) ['é'] (utf8 ['é'])).1 = false) ∧
      (¬ Glob ['[', '^', 'a', ']'] ['\\'] ∧ (fnmatch (cacheAfter []) ['\\'] (utf8 ['[', '^', 'a', ']'])).1 = true) ∧
      (Glob ['[', 'b', '-', 'a', 'x', ']'] ['x'] ∧
        compile (fnmatchTranslate (utf8 ['[', 'b', '-', 'a', 'x', ']'])) = .error .invalidCharRange ∧
        (fnmatch (cacheAfter []) ['x'] (utf8 ['[', 'b', '-', 'a', 'x', ']'])).1 = false) := by
  have wide : tokens ['é'] = [.lit 'é'] := by decide +kernel
  have caret : tokens ['[', '^', 'a', ']'] = [.cls ⟨false, '^', ['a'], by decide⟩] := by decide +kernel
  have turned : tokens ['[', 'b', '-', 'a', 'x', ']'] = [.cls ⟨false, 'b', ['-', 'a', 'x'], by decide⟩] := by decide +kernel
  refine ⟨⟨(glob_single wide).mpr rfl, by decide +kernel⟩, ⟨?_, by decide +kernel⟩, ?_, by decide +kernel, by decide +kernel⟩
  · intro glob
    obtain ⟨c, same, member⟩ := (glob_single caret).mp glob
    cases same
    exact absurd (member.mpr rfl) (by decide)
  · exact (glob_single turned).mpr ⟨'x', rfl, by decide⟩

end Hfdl.Fnmatch
