import Mathlib.Algebra.BigOperators.Ring.List
import Mathlib.Computability.Language
import Mathlib.Data.List.ReduceOption

/-! A fragment of the RE2 syntax and what it matches: characters, escapes, classes with POSIX names, the dot, a star
after one of these and the two ends of the text. Everything else that RE2 knows is `outside`. -/
namespace Hfdl.Regex

/-- The characters of some ranges, or all others. -/
structure CharSet where
  negated : Bool
  ranges : List (Char × Char)
deriving DecidableEq, Repr

namespace CharSet

def mem (s : CharSet) (c : Char) : Bool := s.negated != s.ranges.any fun r => r.1 ≤ c && c ≤ r.2

def single (c : Char) : CharSet := ⟨false, [(c, c)]⟩

def any : CharSet := ⟨true, []⟩

end CharSet

/-- What consumes text. -/
inductive Piece where
  | one (s : CharSet)
  | star (s : CharSet)
deriving DecidableEq, Repr

inductive Node where
  | beginText
  | endText
  | piece (p : Piece)
deriving DecidableEq, Repr

inductive SyntaxError where
  | missingBracket
  | invalidCharRange
  /-- Syntax that the fragment leaves out, or an escape that RE2 does not have. -/
  | outside
deriving DecidableEq, Repr

def escape : List Char → Except SyntaxError (Char × List Char)
  | [] => .error .outside
  | c :: rest => if c.toNat < 128 && !c.isAlphanum then .ok (c, rest) else .error .outside

def classChar : List Char → Except SyntaxError (Char × List Char)
  | [] => .error .missingBracket
  | c :: rest => if c = '\\' then escape rest else .ok (c, rest)

/-- The POSIX classes and their characters. -/
def posix : List (List Char × List (Char × Char)) :=
  [(['a', 'l', 'n', 'u', 'm'], [('0', '9'), ('A', 'Z'), ('a', 'z')]),
    (['a', 'l', 'p', 'h', 'a'], [('A', 'Z'), ('a', 'z')]),
    (['a', 's', 'c', 'i', 'i'], [('\x00', '\x7F')]),
    (['b', 'l', 'a', 'n', 'k'], [('\t', '\t'), (' ', ' ')]),
    (['c', 'n', 't', 'r', 'l'], [('\x00', '\x1F'), ('\x7F', '\x7F')]),
    (['d', 'i', 'g', 'i', 't'], [('0', '9')]),
    (['g', 'r', 'a', 'p', 'h'], [('!', '~')]),
    (['l', 'o', 'w', 'e', 'r'], [('a', 'z')]),
    (['p', 'r', 'i', 'n', 't'], [(' ', '~')]),
    (['p', 'u', 'n', 'c', 't'], [('!', '/'), (':', '@'), ('[', '\x60'), ('\x7B', '~')]),
    (['s', 'p', 'a', 'c', 'e'], [('\t', '\r'), (' ', ' ')]),
    (['u', 'p', 'p', 'e', 'r'], [('A', 'Z')]),
    (['w', 'o', 'r', 'd'], [('0', '9'), ('A', 'Z'), ('_', '_'), ('a', 'z')]),
    (['x', 'd', 'i', 'g', 'i', 't'], [('0', '9'), ('A', 'F'), ('a', 'f')])]

def gaps (least : Nat) : List (Char × Char) → List (Char × Char)
  | [] => [(Char.ofNat least, Char.ofNat 0x10FFFF)]
  | r :: rs => (if least < r.1.toNat then [(Char.ofNat least, Char.ofNat (r.1.toNat - 1))] else []) ++ gaps (r.2.toNat + 1) rs

def group (name : List Char) : Option (List (Char × Char)) :=
  if name.head? = some '^' then (posix.lookup name.tail).map (gaps 0) else posix.lookup name

/-- A name up to the colon and bracket that close it, in this class or behind it. -/
def untilClose : List Char → Option (List Char × List Char)
  | [] => none
  | c :: rest =>
    if c = ':' ∧ rest.head? = some ']' then some ([], rest.tail)
    else (untilClose rest).map fun p => (c :: p.1, p.2)

def named : List Char → Option (List Char × List Char)
  | '[' :: ':' :: rest => untilClose rest
  | _ => none

/-- A character or a range. A minus right before the end of the class is a character. -/
def classRange (t : List Char) : Except SyntaxError ((Char × Char) × List Char) :=
  match classChar t with
  | .error e => .error e
  | .ok (lo, rest) =>
    if rest.head? = some '-' ∧ rest.tail ≠ [] ∧ rest.tail.head? ≠ some ']' then
      match classChar rest.tail with
      | .error e => .error e
      | .ok (hi, rest) => if hi < lo then .error .invalidCharRange else .ok ((lo, hi), rest)
    else .ok ((lo, lo), rest)

def classItem (t : List Char) : Except SyntaxError (List (Char × Char) × List Char) :=
  match named t with
  | none => (classRange t).map fun p => ([p.1], p.2)
  | some (name, rest) =>
    match group name with
    | none => .error .invalidCharRange
    | some rs => .ok (rs, rest)

theorem classChar_length (read : classChar t = .ok (c, rest)) : rest.length < t.length := by
  cases t with
  | nil => cases read
  | cons a t =>
    simp only [classChar] at read
    split at read
    · cases t with
      | nil => cases read
      | cons b t =>
        simp only [escape] at read
        split at read <;> cases read
        simp only [List.length_cons]
        omega
    · cases read
      exact Nat.lt_succ_self _

theorem untilClose_eq (read : untilClose t = some (name, rest)) : t = name ++ ':' :: ']' :: rest := by
  induction t generalizing name with
  | nil => cases read
  | cons c t ih =>
    simp only [untilClose] at read
    split at read
    · rename_i here
      obtain ⟨rfl, head⟩ := here
      cases read
      cases t with
      | nil => cases head
      | cons d t =>
        cases head
        rfl
    · obtain ⟨⟨name, after⟩, inner, ⟨⟩⟩ := Option.map_eq_some_iff.mp read
      rw [ih inner, List.cons_append]

theorem named_eq (read : named t = some (name, rest)) : t = '[' :: ':' :: (name ++ ':' :: ']' :: rest) := by
  unfold named at read
  split at read
  · rw [untilClose_eq read]
  · cases read

theorem classRange_length (read : classRange t = .ok (r, rest)) : rest.length < t.length := by
  simp only [classRange] at read
  split at read
  · cases read
  rename_i lo after first
  have shorter := classChar_length first
  split at read
  · split at read
    · cases read
    · rename_i hi last second
      have shortest := classChar_length second
      split at read <;> cases read
      have tail : after.tail.length ≤ after.length := by
        rw [List.length_tail]
        exact Nat.sub_le _ _
      omega
  · cases read
    exact shorter

theorem Except.map_eq_ok {f : α → β} {x : Except ε α} (read : x.map f = .ok b) : ∃ a, x = .ok a ∧ f a = b := by
  cases x with
  | error e => cases read
  | ok a =>
    cases read
    exact ⟨a, rfl, rfl⟩

theorem classItem_length (read : classItem t = .ok (rs, rest)) : rest.length < t.length := by
  unfold classItem at read
  split at read
  · obtain ⟨⟨r, after⟩, inner, ⟨⟩⟩ := Except.map_eq_ok read
    exact classRange_length inner
  · rename_i name after found
    split at read
    · cases read
    · cases read
      rw [named_eq found]
      simp only [List.length_cons, List.length_append]
      omega

/-- The rest of a class. A bracket that comes first is a character. -/
def classRanges (first : Bool) (t : List Char) : Except SyntaxError (List (Char × Char) × List Char) :=
  if t.head? = some ']' ∧ first = false then .ok ([], t.tail)
  else
    match _read : classItem t with
    | .error e => .error e
    | .ok (rs, rest) => (classRanges false rest).map fun p => (rs ++ p.1, p.2)
termination_by t.length
decreasing_by exact classItem_length _read

def charClass (t : List Char) : Except SyntaxError (CharSet × List Char) :=
  if t.head? = some '^' then (classRanges true t.tail).map fun p => (⟨true, p.1⟩, p.2)
  else (classRanges true t).map fun p => (⟨false, p.1⟩, p.2)

def operators : List Char := ['(', ')', '|', '^', '$', '*', '+', '?', '{']

def atom (dotNL : Bool) : List Char → Except SyntaxError (Node × List Char)
  | [] => .error .outside
  | c :: rest =>
    if c = '.' then .ok (.piece (.one (if dotNL then .any else ⟨true, [('\n', '\n')]⟩)), rest)
    else if c = '[' then (charClass rest).map fun p => (.piece (.one p.1), p.2)
    else if c = '\\' then
      if rest.head? = some 'A' then .ok (.beginText, rest.tail)
      else if rest.head? = some 'z' then .ok (.endText, rest.tail)
      else (escape rest).map fun p => (.piece (.one (.single p.1)), p.2)
    else if c ∈ operators then .error .outside
    else .ok (.piece (.one (.single c)), rest)

/-- A star after one character repeats it. -/
def repeated (p : Node × List Char) : Node × List Char :=
  if p.2.head? = some '*' then
    match p.1 with
    | .piece (.one s) => (.piece (.star s), p.2.tail)
    | _ => p
  else p

theorem classRanges_length (read : classRanges first t = .ok (rs, rest)) : rest.length < t.length := by
  fun_induction classRanges first t generalizing rs with
  | case1 first t here =>
    cases read
    cases t with
    | nil => cases here.1
    | cons c t => exact Nat.lt_succ_self _
  | case2 => cases read
  | case3 first t unclosed r after item ih =>
    cases inner : classRanges false after with
    | error e =>
      rw [inner] at read
      cases read
    | ok p =>
      rw [inner] at read
      cases read
      exact (ih inner).trans (classItem_length item)

theorem charClass_length (read : charClass t = .ok (s, rest)) : rest.length < t.length := by
  simp only [charClass] at read
  split at read
  · obtain ⟨⟨rs, after⟩, inner, ⟨⟩⟩ := Except.map_eq_ok read
    have shorter := classRanges_length inner
    rw [List.length_tail] at shorter
    exact Nat.lt_of_lt_of_le shorter (Nat.sub_le _ _)
  · obtain ⟨⟨rs, after⟩, inner, ⟨⟩⟩ := Except.map_eq_ok read
    exact classRanges_length inner

theorem escape_length (read : escape t = .ok (c, rest)) : rest.length < t.length := by
  cases t with
  | nil => cases read
  | cons a t =>
    simp only [escape] at read
    split at read <;> cases read
    exact Nat.lt_succ_self _

theorem atom_length (read : atom dotNL t = .ok (n, rest)) : rest.length < t.length := by
  cases t with
  | nil => cases read
  | cons c t =>
    simp only [atom] at read
    split at read
    · cases read
      exact Nat.lt_succ_self _
    split at read
    · obtain ⟨⟨s, after⟩, inner, ⟨⟩⟩ := Except.map_eq_ok read
      exact (charClass_length inner).trans (Nat.lt_succ_self _)
    split at read
    · have tail : t.tail.length < (c :: t).length := by
        rw [List.length_tail, List.length_cons]
        omega
      split at read
      · cases read
        exact tail
      split at read
      · cases read
        exact tail
      · obtain ⟨⟨d, after⟩, inner, ⟨⟩⟩ := Except.map_eq_ok read
        exact (escape_length inner).trans (Nat.lt_succ_self _)
    split at read <;> cases read
    exact Nat.lt_succ_self _

theorem repeated_length (p : Node × List Char) : (repeated p).2.length ≤ p.2.length := by
  unfold repeated
  split
  · split
    · rw [List.length_tail]
      exact Nat.sub_le _ _
    · exact Nat.le_refl _
  · exact Nat.le_refl _

def parse (dotNL : Bool) (t : List Char) : Except SyntaxError (List Node) :=
  if t = [] then .ok []
  else
    match _read : atom dotNL t with
    | .error e => .error e
    | .ok p => (parse dotNL (repeated p).2).map ((repeated p).1 :: ·)
termination_by t.length
decreasing_by exact Nat.lt_of_le_of_lt (repeated_length p) (atom_length _read)

/-- The flag that lets a dot match a newline stands in front. -/
def compile : List Char → Except SyntaxError (List Node)
  | '(' :: '?' :: 's' :: ')' :: rest => parse true rest
  | t => parse false t

def many (s : CharSet) (k : Bool → List Char → Bool) : Bool → List Char → Bool
  | start, [] => k start []
  | start, c :: text => k start (c :: text) || s.mem c && many s k false text

def Node.accepts (k : Bool → List Char → Bool) (start : Bool) : Node → List Char → Bool
  | .beginText, text => start && k start text
  | .endText, text => text.isEmpty && k start text
  | .piece (.one _), [] => false
  | .piece (.one s), c :: text => s.mem c && k false text
  | .piece (.star s), text => many s k start text

def accepts : List Node → Bool → List Char → Bool
  | [], _, _ => true
  | n :: nodes, start, text => n.accepts (accepts nodes) start text

def search (nodes : List Node) : Bool → List Char → Bool
  | start, [] => accepts nodes start []
  | start, c :: text => accepts nodes start (c :: text) || search nodes false text

def matchString (nodes : List Node) (text : List Char) : Bool := search nodes true text

section Language

def CharSet.language (s : CharSet) : Language Char := {w | ∃ c, s.mem c = true ∧ w = [c]}

def Piece.language : Piece → Language Char
  | .one s => s.language
  | .star s => KStar.kstar s.language

theorem nil_mem_language_mul (s : CharSet) (l : Language Char) : [] ∉ s.language * l := by
  intro member
  obtain ⟨_, ⟨c, _, rfl⟩, rest, _, never⟩ := Language.mem_mul.mp member
  cases never

theorem cons_mem_language_mul (s : CharSet) (l : Language Char) (c : Char) (text : List Char) :
    c :: text ∈ s.language * l ↔ s.mem c = true ∧ text ∈ l := by
  constructor
  · intro member
    obtain ⟨_, ⟨d, known, rfl⟩, rest, follows, same⟩ := Language.mem_mul.mp member
    cases same
    exact ⟨known, follows⟩
  · rintro ⟨known, follows⟩
    exact Language.mem_mul.mpr ⟨[c], ⟨c, known, rfl⟩, text, follows, rfl⟩

theorem kstar_mul (l m : Language Char) : KStar.kstar l * m = m + l * (KStar.kstar l * m) := by
  conv_lhs => rw [← Language.one_add_self_mul_kstar_eq_kstar l]
  rw [add_mul, one_mul, mul_assoc]

theorem many_iff {l : Language Char} {k : Bool → List Char → Bool} (follows : ∀ start text, k start text = true ↔ text ∈ l)
    (start : Bool) (text : List Char) : many s k start text = true ↔ text ∈ KStar.kstar s.language * l := by
  induction text generalizing start with
  | nil =>
    rw [kstar_mul, Language.mem_add]
    simp only [many, follows]
    exact ⟨.inl, fun member => member.resolve_right (nil_mem_language_mul s _)⟩
  | cons c text ih =>
    rw [kstar_mul, Language.mem_add, cons_mem_language_mul]
    simp only [many, Bool.or_eq_true, Bool.and_eq_true, follows, ih]

theorem accepts_pieces (pieces : List Piece) (start : Bool) (text : List Char) :
    accepts (pieces.map .piece ++ [.endText]) start text = true ↔ text ∈ (pieces.map Piece.language).prod := by
  induction pieces generalizing start text with
  | nil =>
    simp only [List.map_nil, List.nil_append, accepts, Node.accepts, List.prod_nil, Bool.and_true, List.isEmpty_iff]
    exact (Language.mem_one text).symm
  | cons p pieces ih =>
    rw [List.map_cons, List.cons_append, accepts, List.map_cons, List.prod_cons]
    cases p with
    | one s =>
      cases text with
      | nil =>
        simp only [Node.accepts, Bool.false_eq_true, false_iff]
        exact nil_mem_language_mul s _
      | cons c text =>
        simp only [Node.accepts, Bool.and_eq_true, ih]
        exact (cons_mem_language_mul s _ c text).symm
    | star s => exact many_iff ih start text

theorem search_beginText (nodes : List Node) (start : Bool) (text : List Char) :
    search (.beginText :: nodes) start text = (start && accepts nodes start text) := by
  have later : ∀ text, search (.beginText :: nodes) false text = false := by
    intro text
    induction text with
    | nil => rfl
    | cons c text ih => rw [search, ih]; rfl
  cases text with
  | nil => rfl
  | cons c text =>
    rw [search, later]
    simp [accepts, Node.accepts]

/-- Between the two anchors the pieces match the whole text or nothing. -/
theorem matchString_anchored (pieces : List Piece) (text : List Char) :
    matchString (.beginText :: (pieces.map .piece ++ [.endText])) text = true ↔ text ∈ (pieces.map Piece.language).prod := by
  rw [matchString, search_beginText, Bool.true_and]
  exact accepts_pieces pieces true text

end Language

section Words
variable {α : Type*} {w : List α} {ps : List (Option (Set α))}

def partLanguage : Option (Set α) → Language α
  | none => ⊤
  | some s => {w | ∃ c ∈ s, w = [c]}

/-- The words of the parts that have a character for each set and nothing else. -/
theorem mem_of_spells (spells : List.Forall₂ (· ∈ ·) w ps.reduceOption) : w ∈ (ps.map partLanguage).prod := by
  induction ps generalizing w with
  | nil =>
    cases spells
    exact Language.nil_mem_one
  | cons p ps ih =>
    rw [List.map_cons, List.prod_cons]
    cases p with
    | none => exact Language.mem_mul.mpr ⟨[], trivial, w, ih spells, rfl⟩
    | some s =>
      obtain _ | ⟨here, later⟩ := spells
      exact Language.mem_mul.mpr ⟨[_], ⟨_, here, rfl⟩, _, ih later, rfl⟩

theorem spells_of_mem (member : w ∈ (ps.map partLanguage).prod) : ps.reduceOption.length ≤ w.length ∧
    (w.length ≤ ps.reduceOption.length → List.Forall₂ (· ∈ ·) w ps.reduceOption) := by
  induction ps generalizing w with
  | nil =>
    obtain rfl := (Language.mem_one w).mp member
    exact ⟨Nat.le_refl _, fun _ => .nil⟩
  | cons p ps ih =>
    rw [List.map_cons, List.prod_cons] at member
    obtain ⟨u, first, v, rest, rfl⟩ := Language.mem_mul.mp member
    obtain ⟨least, exact_⟩ := ih rest
    rw [List.length_append]
    cases p with
    | none =>
      rw [List.reduceOption_cons_of_none]
      refine ⟨by omega, fun most => ?_⟩
      obtain rfl : u = [] := List.length_eq_zero_iff.mp (by omega)
      exact exact_ (by simpa using most)
    | some s =>
      obtain ⟨c, here, rfl⟩ := first
      rw [List.reduceOption_cons_of_some, List.length_cons, List.length_singleton]
      exact ⟨by omega, fun most => .cons here (exact_ (by omega))⟩

theorem exists_spelling {ss : List (Set α)} (some_ : ∀ s ∈ ss, s.Nonempty) : ∃ w, List.Forall₂ (· ∈ ·) w ss := by
  induction ss with
  | nil => exact ⟨[], .nil⟩
  | cons s ss ih =>
    obtain ⟨w, later⟩ := ih fun s member => some_ s (List.mem_cons_of_mem _ member)
    obtain ⟨c, here⟩ := some_ s List.mem_cons_self
    exact ⟨c :: w, .cons here later⟩

theorem no_word (empty : some ∅ ∈ ps) : w ∉ (ps.map partLanguage).prod := by
  have nothing : partLanguage (some (∅ : Set α)) = 0 := by
    ext w
    exact ⟨fun ⟨_, never, _⟩ => never, fun never => absurd never (Language.notMem_zero w)⟩
  rw [List.prod_eq_zero (nothing ▸ List.mem_map_of_mem empty)]
  exact Language.notMem_zero w

end Words

section Parsing

theorem parse_nil (dotNL : Bool) : parse dotNL [] = .ok [] := by
  rw [parse, if_pos rfl]

theorem parse_atom (read : atom dotNL t = .ok p) : parse dotNL t = (parse dotNL (repeated p).2).map ((repeated p).1 :: ·) := by
  have filled : t ≠ [] := by
    rintro rfl
    cases read
  rw [parse, if_neg filled]
  split
  · rename_i e failed
    rw [read] at failed
    cases failed
  · rename_i q again
    rw [read] at again
    cases again
    rfl

theorem parse_error (read : atom dotNL t = .error e) (filled : t ≠ []) : parse dotNL t = .error e := by
  rw [parse, if_neg filled]
  split <;> rename_i again <;> rw [read] at again <;> cases again
  rfl

theorem parse_plain (read : atom dotNL t = .ok (n, rest)) (unstarred : rest.head? ≠ some '*') :
    parse dotNL t = (parse dotNL rest).map (n :: ·) := by
  rw [parse_atom read, repeated, if_neg unstarred]

theorem parse_star (read : atom dotNL t = .ok (.piece (.one s), '*' :: rest)) :
    parse dotNL t = (parse dotNL rest).map (.piece (.star s) :: ·) := by
  rw [parse_atom read]
  rfl

theorem classRanges_close (rest : List Char) : classRanges false (']' :: rest) = .ok ([], rest) := by
  rw [classRanges]
  rfl

theorem classRanges_item (more : t.head? = some ']' → first = true) : classRanges first t =
    (classItem t).bind fun item => (classRanges false item.2).map fun p => (item.1 ++ p.1, p.2) := by
  have unclosed : ¬ (t.head? = some ']' ∧ first = false) := by
    rintro ⟨here, closed⟩
    rw [more here] at closed
    cases closed
  rw [classRanges, if_neg unclosed]
  split <;> rename_i read <;> rw [read] <;> rfl

end Parsing

end Hfdl.Regex
