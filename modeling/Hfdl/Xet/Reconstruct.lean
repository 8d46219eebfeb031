import Hfdl.Indexed
import Hfdl.Int64
import Mathlib.Data.List.Basic
import Mathlib.Data.Int.Order.Basic

/-! The reconstruction of a file from the chunks of xorbs: the normal form of the server's answer, the choice of the
ranges to fetch for a term, and the decoding of a term from them. File offsets are machine integers, and the place of the
first term is the server's to choose, so the offsets of the later ones may wrap around. -/
namespace Hfdl.Xet
open Indexed

abbrev Bytes := List UInt8

abbrev XorbHash := String

structure TermJSON where
  hash : XorbHash
  unpackedLength : Nat
  start : Nat
  stop : Nat

/-- An authorized range of a xorb: chunk indexes, and the bytes to ask for with an inclusive end. -/
structure FetchRange where
  url : String
  chunkStart : Nat
  chunkEnd : Nat
  byteStart : Int
  byteEnd : Int
deriving DecidableEq

structure ReconTerm where
  xorb : XorbHash
  unpackedLength : Nat
  chunkStart : Nat
  chunkEnd : Nat
  fileStart : Int
  fileEnd : Int
deriving DecidableEq

structure Reconstruction where
  version : Nat
  offsetIntoFirstRange : Int
  terms : List ReconTerm
  fetch : XorbHash → List FetchRange

inductive XetError where
  | notPrepared
  | rangeNotSatisfiable (off length size : Int)
  | startsBeforeFile (base offsetIntoFirstRange : Int)
  | emptyChunkRange (xorb : XorbHash) (term start stop : Nat)
  | zeroUnpackedLength (xorb : XorbHash) (term start stop : Nat)
  | uncoveredTerm (xorb : XorbHash) (term start stop : Nat)
  | uncoveredRange (xorb : XorbHash) (start stop : Nat)
  | chunkCount (xorb : XorbHash) (holds start stop : Nat)
  | lengthMismatch (xorb : XorbHash) (start stop want got : Nat)
  | noTerm (pos : Int)
  | termGap (pos : Int)
  | fetch (cause : String)
deriving DecidableEq

/-- The terms in their order, each where the one before ends, in machine arithmetic. -/
def placeTerms : Nat → Int → List TermJSON → Except XetError (List ReconTerm)
  | _, _, [] => .ok []
  | i, cur, t :: rest =>
    if t.stop ≤ t.start then .error (.emptyChunkRange t.hash i t.start t.stop)
    else if t.unpackedLength = 0 then .error (.zeroUnpackedLength t.hash i t.start t.stop)
    else (placeTerms (i + 1) (wrapInt64 (cur + t.unpackedLength)) rest).map
      (⟨t.hash, t.unpackedLength, t.start, t.stop, cur, wrapInt64 (cur + t.unpackedLength)⟩ :: ·)

/-- Tiles the chunks from `cur` on with the first entry that contains the next one. -/
def coverLoop (entries : List FetchRange) (stop : Nat) : Nat → Nat → Option (List FetchRange)
  | 0, _ => some []
  | fuel + 1, cur =>
    if cur < stop then
      match entries.find? fun e => e.chunkStart ≤ cur ∧ cur < e.chunkEnd with
      | some e => (coverLoop entries stop fuel e.chunkEnd).map (e :: ·)
      | none => none
    else some []

/-- No entry and a gap look alike to the caller. -/
def coverRanges (entries : List FetchRange) (start stop : Nat) : Option (List FetchRange) :=
  match coverLoop entries stop (stop - start) start with
  | some (e :: es) => some (e :: es)
  | some [] | none => none

def beforeRange (a b : FetchRange) : Bool :=
  if a.chunkStart ≠ b.chunkStart then a.chunkStart < b.chunkStart else a.chunkEnd ≤ b.chunkEnd

/-- The first term that no choice of entries covers. -/
def checkCover (fetch : XorbHash → List FetchRange) : Nat → List ReconTerm → Option XetError
  | _, [] => none
  | i, t :: rest =>
    match coverRanges (fetch t.xorb) t.chunkStart t.chunkEnd with
    | some _ => checkCover fetch (i + 1) rest
    | none => some (.uncoveredTerm t.xorb i t.chunkStart t.chunkEnd)

def normalize (version : Nat) (base offsetFirst : Int) (terms : List TermJSON) (fetch : XorbHash → List FetchRange) :
    Except XetError Reconstruction :=
  if wrapInt64 (base - offsetFirst) < 0 then .error (.startsBeforeFile base offsetFirst)
  else
    match placeTerms 0 (wrapInt64 (base - offsetFirst)) terms with
    | .error e => .error e
    | .ok placed =>
      let sorted (xorb : XorbHash) : List FetchRange := (fetch xorb).mergeSort beforeRange
      match checkCover sorted 0 placed with
      | some e => .error e
      | none => .ok ⟨version, offsetFirst, placed, sorted⟩

section
variable (serve : XorbHash → FetchRange → Except XetError (List Bytes))

/-- The share of a term in the chunks of the chosen entries, in their order. -/
def decodeEntries (t : ReconTerm) : List FetchRange → Except XetError Bytes
  | [] => .ok []
  | e :: es =>
    match serve t.xorb e with
    | .error err => .error err
    | .ok chunks =>
      if chunks.length ≠ e.chunkEnd - e.chunkStart then .error (.chunkCount t.xorb chunks.length e.chunkStart e.chunkEnd)
      else
        let lo := max t.chunkStart e.chunkStart - e.chunkStart
        let hi := min t.chunkEnd e.chunkEnd - e.chunkStart
        (decodeEntries t es).map ((slice chunks lo hi).flatten ++ ·)

/-- Fetches and decodes the chunks of a term; the decoder of a fetched range is a parameter. -/
def decodeTerm (r : Reconstruction) (t : ReconTerm) : Except XetError Bytes :=
  match coverRanges (r.fetch t.xorb) t.chunkStart t.chunkEnd with
  | none => .error (.uncoveredRange t.xorb t.chunkStart t.chunkEnd)
  | some entries =>
    match decodeEntries serve t entries with
    | .error err => .error err
    | .ok decoded =>
      if decoded.length ≠ t.unpackedLength then
        .error (.lengthMismatch t.xorb t.chunkStart t.chunkEnd t.unpackedLength decoded.length)
      else .ok decoded

end

/-- The bytes of the chunks of `[start, stop)` of a xorb. -/
def chunkBytes (xorb : List Bytes) (start stop : Nat) : Bytes := (slice xorb start stop).flatten

/-- The bytes that the chosen entries bring again: an entry begins with the first of its chunks that the term has, though
those before it cover the term up to `cur`. -/
def repeatedBytes (xorb : List Bytes) (t : ReconTerm) : Nat → List FetchRange → Nat
  | _, [] => 0
  | cur, e :: es => (chunkBytes xorb (max t.chunkStart e.chunkStart) cur).length + repeatedBytes xorb t e.chunkEnd es

def Served (serve : XorbHash → FetchRange → Except XetError (List Bytes)) (xorb : XorbHash) (e : FetchRange) : Prop :=
  ∃ chunks, serve xorb e = .ok chunks ∧ chunks.length = e.chunkEnd - e.chunkStart

section
variable {serve : XorbHash → FetchRange → Except XetError (List Bytes)} {xorb : List Bytes} {entries es : List FetchRange}
  {t : ReconTerm}

theorem chunkBytes_append (left : i ≤ j) (right : j ≤ k) : chunkBytes xorb i j ++ chunkBytes xorb j k = chunkBytes xorb i k := by
  rw [chunkBytes, chunkBytes, ← List.flatten_append, slice_append left right, chunkBytes]

theorem chunkBytes_empty (none_left : j ≤ i) : chunkBytes xorb i j = [] := by
  rw [chunkBytes, slice_empty none_left]
  rfl

theorem chunkBytes_min_append (reached : i ≤ j) : chunkBytes xorb i (min k j) ++ chunkBytes xorb j k = chunkBytes xorb i k := by
  rw [chunkBytes, chunkBytes, ← List.flatten_append, slice_min_append reached, chunkBytes]

/-- What one chosen entry contributes: some chunks again that came before, and the chunks up to its end. -/
theorem decodeEntries_cons (served : ∀ chunks, serve t.xorb e = .ok chunks → chunks = slice xorb e.chunkStart e.chunkEnd)
    (holds : e.chunkStart ≤ cur ∧ cur < e.chunkEnd) (started : t.chunkStart ≤ cur) (open_ : cur < t.chunkEnd)
    (decoded : decodeEntries serve t (e :: es) = .ok bytes) :
    Served serve t.xorb e ∧ ∃ rest, decodeEntries serve t es = .ok rest ∧
      bytes = chunkBytes xorb (max t.chunkStart e.chunkStart) cur ++
      (chunkBytes xorb cur (min t.chunkEnd e.chunkEnd) ++ rest) := by
  simp only [decodeEntries] at decoded
  split at decoded
  · cases decoded
  rename_i chunks fetched
  split at decoded
  · cases decoded
  rename_i whole
  refine ⟨⟨chunks, fetched, not_ne_iff.mp whole⟩, ?_⟩
  cases later : decodeEntries serve t es with
  | error err =>
    rw [later] at decoded
    cases decoded
  | ok rest =>
    rw [later] at decoded
    apply Exists.intro rest
    constructor
    · rfl
    · have share : slice chunks (max t.chunkStart e.chunkStart - e.chunkStart) (min t.chunkEnd e.chunkEnd - e.chunkStart) =
          slice xorb (max t.chunkStart e.chunkStart) (min t.chunkEnd e.chunkEnd) := by
        rw [served chunks fetched, slice_slice (by omega)]
        congr 1 <;> omega
      have bytes_eq : bytes = (slice chunks _ _).flatten ++ rest := (Except.ok.inj decoded).symm
      rw [bytes_eq, share, ← List.append_assoc, chunkBytes_append (by omega) (by omega), chunkBytes]

theorem decodeEntries_ok (all : ∀ e ∈ es, Served serve t.xorb e) : ∃ bytes, decodeEntries serve t es = .ok bytes := by
  induction es with
  | nil => exact ⟨[], rfl⟩
  | cons e es ih =>
    obtain ⟨chunks, fetched, whole⟩ := all e List.mem_cons_self
    obtain ⟨rest, later⟩ := ih fun e member => all e (List.mem_cons_of_mem _ member)
    simp only [decodeEntries, fetched, later, if_neg (not_ne_iff.mpr whole)]
    exact ⟨_, rfl⟩

theorem coverLoop_succ (covered : coverLoop entries stop (fuel + 1) cur = some es) (more : cur < stop) :
    ∃ e ∈ entries, (e.chunkStart ≤ cur ∧ cur < e.chunkEnd) ∧
      ∃ later, coverLoop entries stop fuel e.chunkEnd = some later ∧ es = e :: later := by
  rw [coverLoop, if_pos more] at covered
  split at covered
  · rename_i e found
    obtain ⟨later, rest, same⟩ := Option.map_eq_some_iff.mp covered
    have holds := List.find?_some found
    exact ⟨e, List.mem_of_find?_eq_some found, of_decide_eq_true holds, later, rest, same.symm⟩
  · cases covered

theorem coverLoop_done (covered : coverLoop entries stop fuel cur = some es) (done : stop ≤ cur) : es = [] := by
  cases fuel with
  | zero =>
    cases covered
    rfl
  | succ fuel =>
    rw [coverLoop, if_neg (Nat.not_lt.mpr done)] at covered
    cases covered
    rfl

/-- The chosen entries were served, and deliver the chunks they are to cover and what they repeat of them. -/
theorem decode_cover (served : ∀ e ∈ entries, ∀ chunks, serve t.xorb e = .ok chunks → chunks = slice xorb e.chunkStart e.chunkEnd)
    (enough : t.chunkEnd - cur ≤ fuel) (started : t.chunkStart ≤ cur)
    (covered : coverLoop entries t.chunkEnd fuel cur = some es) (decoded : decodeEntries serve t es = .ok bytes) :
    (∀ e ∈ es, Served serve t.xorb e) ∧ bytes.length = (chunkBytes xorb cur t.chunkEnd).length + repeatedBytes xorb t cur es ∧
      (repeatedBytes xorb t cur es = 0 → bytes = chunkBytes xorb cur t.chunkEnd) := by
  induction fuel generalizing cur es bytes with
  | zero =>
    cases covered
    cases decoded
    rw [chunkBytes_empty (by omega)]
    exact ⟨fun _ never => absurd never List.not_mem_nil, rfl, fun _ => rfl⟩
  | succ fuel ih =>
    by_cases more : cur < t.chunkEnd
    · obtain ⟨e, member, holds, later, rest, rfl⟩ := coverLoop_succ covered more
      obtain ⟨first, bytes', decoded', rfl⟩ := decodeEntries_cons (served e member) holds started more decoded
      obtain ⟨others, length_eq, exact_⟩ := ih (by omega) (by omega) rest decoded'
      have whole : chunkBytes xorb cur _ ++ _ = chunkBytes xorb cur t.chunkEnd := chunkBytes_min_append (Nat.le_of_lt holds.2)
      have lengths := congrArg List.length whole
      simp only [List.length_append] at lengths ⊢
      refine ⟨List.forall_mem_cons.mpr ⟨first, others⟩, ?_, fun none_ => ?_⟩
      · rw [repeatedBytes]
        omega
      · rw [repeatedBytes] at none_
        have again : chunkBytes xorb (max t.chunkStart e.chunkStart) cur = [] := List.eq_nil_of_length_eq_zero (by omega)
        rw [again, exact_ (by omega), List.nil_append, whole]
    · obtain rfl := coverLoop_done covered (by omega)
      cases decoded
      rw [chunkBytes_empty (by omega)]
      exact ⟨fun _ never => absurd never List.not_mem_nil, rfl, fun _ => rfl⟩

theorem coverLoop_of_coverRanges (covered : coverRanges entries start stop = some es) :
    coverLoop entries stop (stop - start) start = some es := by
  rw [coverRanges] at covered
  split at covered
  · cases covered
    assumption
  · cases covered
  · cases covered

theorem checkCover_none (checked : checkCover fetch i terms = none) (member : t ∈ terms) :
    (coverRanges (fetch t.xorb) t.chunkStart t.chunkEnd).isSome = true := by
  induction terms generalizing i with
  | nil => cases member
  | cons first rest ih =>
    rw [checkCover] at checked
    split at checked
    · rename_i entries covered
      cases member with
      | head =>
        rw [covered]
        rfl
      | tail _ later => exact ih checked later
    · cases checked

theorem normalize_ok (accepted : normalize version base offsetFirst terms fetch = .ok r) :
    0 ≤ wrapInt64 (base - offsetFirst) ∧ placeTerms 0 (wrapInt64 (base - offsetFirst)) terms = .ok r.terms ∧
      checkCover r.fetch 0 r.terms = none := by
  rw [normalize] at accepted
  split at accepted
  · cases accepted
  rename_i inside
  split at accepted
  · cases accepted
  rename_i placed placed_eq
  simp only at accepted
  split at accepted
  · cases accepted
  rename_i checked
  cases accepted
  exact ⟨by omega, placed_eq, checked⟩

theorem decodeTerm_ok (covered : coverRanges (r.fetch t.xorb) t.chunkStart t.chunkEnd = some entries)
    (served : ∀ e ∈ r.fetch t.xorb, ∀ chunks, serve t.xorb e = .ok chunks → chunks = slice xorb e.chunkStart e.chunkEnd) :
    (∀ bytes, decodeTerm serve r t = .ok bytes →
      (∀ e ∈ entries, Served serve t.xorb e) ∧ bytes.length = t.unpackedLength ∧
        t.unpackedLength = (chunkBytes xorb t.chunkStart t.chunkEnd).length + repeatedBytes xorb t t.chunkStart entries ∧
        (repeatedBytes xorb t t.chunkStart entries = 0 → bytes = chunkBytes xorb t.chunkStart t.chunkEnd)) ∧
    ((∀ e ∈ entries, Served serve t.xorb e) →
      t.unpackedLength = (chunkBytes xorb t.chunkStart t.chunkEnd).length + repeatedBytes xorb t t.chunkStart entries →
      ∃ bytes, decodeTerm serve r t = .ok bytes) := by
  have looped := coverLoop_of_coverRanges covered
  simp only [decodeTerm, covered]
  refine ⟨fun bytes decoded => ?_, fun all announced => ?_⟩
  · split at decoded
    · cases decoded
    rename_i whole decoded_all
    split at decoded
    · cases decoded
    rename_i length_eq
    cases decoded
    obtain ⟨all, total, exact_⟩ := decode_cover served (Nat.le_refl _) (Nat.le_refl _) looped decoded_all
    have same := not_ne_iff.mp length_eq
    exact ⟨all, same, same ▸ total, exact_⟩
  · obtain ⟨bytes, decoded⟩ := decodeEntries_ok all
    obtain ⟨-, total, -⟩ := decode_cover served (Nat.le_refl _) (Nat.le_refl _) looped decoded
    rw [decoded]
    exact ⟨bytes, if_neg (not_ne_iff.mpr (total.trans announced.symm))⟩

/-- A term of an accepted reconstruction can be covered; and whatever it decodes to are its chunks, each once and in order,
just when the chosen entries repeat no byte, or the announced length does not count what they repeat, or one of them is
not served. -/
theorem decodeTerm_exact (accepted : normalize version base offsetFirst terms fetch = .ok r) (member : t ∈ r.terms)
    (served : ∀ e ∈ r.fetch t.xorb, ∀ chunks, serve t.xorb e = .ok chunks → chunks = slice xorb e.chunkStart e.chunkEnd) :
    ∃ entries, coverRanges (r.fetch t.xorb) t.chunkStart t.chunkEnd = some entries ∧
      ((∀ bytes, decodeTerm serve r t = .ok bytes → bytes = chunkBytes xorb t.chunkStart t.chunkEnd) ↔
        repeatedBytes xorb t t.chunkStart entries = 0 ∨
          t.unpackedLength ≠ (chunkBytes xorb t.chunkStart t.chunkEnd).length + repeatedBytes xorb t t.chunkStart entries ∨
          ∃ e ∈ entries, ¬ Served serve t.xorb e) := by
  obtain ⟨-, -, checked⟩ := normalize_ok accepted
  obtain ⟨entries, covered⟩ := Option.isSome_iff_exists.mp (checkCover_none checked member)
  obtain ⟨decodes, succeeds⟩ := decodeTerm_ok covered served
  refine ⟨entries, covered, fun exact_ => ?_, fun apart bytes decoded => ?_⟩
  · by_contra bad
    push Not at bad
    obtain ⟨again, announced, all⟩ := bad
    obtain ⟨bytes, decoded⟩ := succeeds all announced
    obtain ⟨-, length_eq, -, -⟩ := decodes bytes decoded
    rw [exact_ bytes decoded] at length_eq
    omega
  · obtain ⟨all, -, announced, exact_⟩ := decodes bytes decoded
    rcases apart with none_ | other | ⟨e, chosen, missed⟩
    · exact exact_ none_
    · exact absurd announced other
    · exact absurd (all e chosen) missed

end

def threeChunks : List Bytes := [[1], [2], [3]]

def serveThree (_ : XorbHash) (e : FetchRange) : Except XetError (List Bytes) := .ok (slice threeChunks e.chunkStart e.chunkEnd)

/-- Two ranges that share the middle chunk, out of order. -/
def sharing : List FetchRange := [⟨"second", 1, 3, 10, 29⟩, ⟨"first", 0, 2, 0, 19⟩]

theorem sharing_sorted : sharing.mergeSort beforeRange = [⟨"first", 0, 2, 0, 19⟩, ⟨"second", 1, 3, 10, 29⟩] := by
  simp [sharing, List.mergeSort, List.MergeSort.Internal.splitInTwo, beforeRange]

/-- The middle chunk comes twice, and the announced length agrees with that. -/
theorem shared_chunk_twice :
    ∃ r t, normalize 2 0 0 [⟨"x", 4, 0, 3⟩] (fun _ => sharing) = .ok r ∧ t ∈ r.terms ∧
      (∀ e ∈ r.fetch t.xorb, ∀ chunks, serveThree t.xorb e = .ok chunks → chunks = slice threeChunks e.chunkStart e.chunkEnd) ∧
      decodeTerm serveThree r t = .ok [1, 2, 2, 3] ∧ chunkBytes threeChunks t.chunkStart t.chunkEnd = [1, 2, 3] := by
  refine ⟨⟨2, 0, [⟨"x", 4, 0, 3, 0, 4⟩], fun _ => [⟨"first", 0, 2, 0, 19⟩, ⟨"second", 1, 3, 10, 29⟩]⟩,
    ⟨"x", 4, 0, 3, 0, 4⟩, ?_, .head _, ?_,
    by decide, by decide⟩
  · simp only [normalize, sharing_sorted]
    rfl
  · intro e _ chunks fetched
    exact (Except.ok.inj fetched).symm

/-- The same ranges for a term that announces each chunk once. -/
theorem decodeTerm_exact_shared :
    ∃ r t, normalize 2 0 0 [⟨"x", 3, 0, 3⟩] (fun _ => sharing) = .ok r ∧ t ∈ r.terms ∧
      ∀ bytes, decodeTerm serveThree r t = .ok bytes → bytes = chunkBytes threeChunks t.chunkStart t.chunkEnd := by
  have accepted : normalize 2 0 0 [⟨"x", 3, 0, 3⟩] (fun _ => sharing) =
      .ok ⟨2, 0, [⟨"x", 3, 0, 3, 0, 3⟩], fun _ => [⟨"first", 0, 2, 0, 19⟩, ⟨"second", 1, 3, 10, 29⟩]⟩ := by
    simp only [normalize, sharing_sorted]
    rfl
  have served (e : FetchRange) (chunks : List Bytes) (fetched : serveThree "x" e = .ok chunks) :
      chunks = slice threeChunks e.chunkStart e.chunkEnd := (Except.ok.inj fetched).symm
  obtain ⟨entries, covered, exact_⟩ := decodeTerm_exact accepted (.head _) fun e _ => served e
  cases covered
  exact ⟨_, _, accepted, .head _, exact_.mpr (.inr (.inl (by decide)))⟩

end Hfdl.Xet
