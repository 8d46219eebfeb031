import Hfdl.Xet.Reconstruct
import Mathlib.Algebra.Ring.Int.Defs

/-! The stream of a range of the file: the terms that hold it are decoded one after another, and the share of each is
written. The reconstruction in force is read anew for every term and again for its decoding. -/
namespace Hfdl.Xet
open Indexed

/-- `sort.Search` for the first term with a property. -/
def searchTerm (terms : List ReconTerm) (p : ReconTerm → Bool) : Option ReconTerm :=
  terms[search terms.length fun i => terms[i]?.any p]?

/-- The search of an arbitrary list ends at a term with the property, whether or not the list is in order. -/
theorem searchTerm_some (found : searchTerm terms p = some t) : t ∈ terms ∧ p t = true := by
  obtain ⟨inside, -⟩ := List.getElem?_eq_some_iff.mp found
  have holds := search_spec inside
  rw [show terms[search terms.length fun i => terms[i]?.any p]? = some t from found] at holds
  exact ⟨List.mem_of_getElem? found, holds⟩

def termAt (terms : List ReconTerm) (pos : Int) : Except XetError ReconTerm :=
  match searchTerm terms fun t => pos < t.fileEnd with
  | none => .error (.noTerm pos)
  | some t => if pos < t.fileStart then .error (.termGap pos) else .ok t

theorem termAt_ok (found : termAt terms pos = .ok t) : t ∈ terms ∧ t.fileStart ≤ pos ∧ pos < t.fileEnd := by
  rw [termAt] at found
  split at found
  · cases found
  rename_i here
  split at found
  · cases found
  rename_i started
  cases found
  obtain ⟨member, ahead⟩ := searchTerm_some here
  exact ⟨member, Int.not_lt.mp started, of_decide_eq_true ahead⟩

/-- What the calls of one stream get: the reconstruction that `Open` reads, those that the later reads return, and what
the fetches of each iteration bring. -/
structure Session where
  recon : Option Reconstruction
  current : Nat → Reconstruction
  serve : Nat → XorbHash → FetchRange → Except XetError (List Bytes)

/-- The bytes written from `pos` on, and the error that ends the stream. -/
def streamTerms (w : Session) (stop : Int) (n : Nat) (pos : Int) : Bytes × Option XetError :=
  if _more : pos < stop then
    match _found : termAt (w.current n).terms pos with
    | .error e => ([], some e)
    | .ok t =>
      match decodeTerm (w.serve n) (w.current (n + 1)) t with
      | .error e => ([], some e)
      | .ok decoded =>
        let lo := max pos t.fileStart - t.fileStart
        let hi := min stop t.fileEnd - t.fileStart
        let rest := streamTerms w stop (n + 2) t.fileEnd
        (slice decoded lo.toNat hi.toNat ++ rest.1, rest.2)
  else ([], none)
termination_by (stop - pos).toNat
decreasing_by
  -- the loop goes on behind a term that was not over
  have advanced := (termAt_ok _found).2.2
  omega

/-- The sum of the offset and the length is formed only after both are known to fit. -/
def openStream (w : Session) (size off length : Int) : Except XetError (Bytes × Option XetError) :=
  match w.recon with
  | none => .error .notPrepared
  | some _ =>
    if off < 0 ∨ length < 0 ∨ off > size ∨ length > size - off then .error (.rangeNotSatisfiable off length size)
    else if length = 0 then .ok ([], none)
    else .ok (streamTerms w (off + length) 0 off)

/-- The streams of consecutive pieces one after another, up to the first that fails. -/
def openPieces (w : Nat → Session) (size : Int) : Nat → Int → List Int → Except XetError Bytes
  | _, _, [] => .ok []
  | i, off, length :: rest =>
    match openStream (w i) size off length with
    | .error e => .error e
    | .ok (_, some e) => .error e
    | .ok (bytes, none) => (openPieces w size (i + 1) (off + length) rest).map (bytes ++ ·)

/-- Each term starts where the one before ends. -/
def Tiles : Int → List ReconTerm → Prop
  | _, [] => True
  | cur, t :: rest => t.fileStart = cur ∧ t.fileEnd = wrapInt64 (cur + t.unpackedLength) ∧ Tiles t.fileEnd rest

theorem placeTerms_cons (placed : placeTerms i cur (t :: rest) = .ok located) :
    (t.start < t.stop ∧ 0 < t.unpackedLength) ∧ ∃ tail, placeTerms (i + 1) (wrapInt64 (cur + t.unpackedLength)) rest = .ok tail ∧
      located = ⟨t.hash, t.unpackedLength, t.start, t.stop, cur, wrapInt64 (cur + t.unpackedLength)⟩ :: tail := by
  rw [placeTerms] at placed
  split at placed
  · cases placed
  split at placed
  · cases placed
  refine ⟨⟨by omega, by omega⟩, ?_⟩
  cases later : placeTerms (i + 1) (wrapInt64 (cur + t.unpackedLength)) rest with
  | error e =>
    rw [later] at placed
    cases placed
  | ok tail =>
    rw [later] at placed
    cases placed
    exact ⟨tail, rfl, rfl⟩

theorem placeTerms_tiles (placed : placeTerms i cur terms = .ok located) : Tiles cur located := by
  induction terms generalizing i cur located with
  | nil =>
    cases placed
    trivial
  | cons t rest ih =>
    obtain ⟨-, tail, later, rfl⟩ := placeTerms_cons placed
    exact ⟨rfl, rfl, ih later⟩

section
variable {content : ReconTerm → Bytes} {located before after : List ReconTerm} {t : ReconTerm} {start pos stop : Int}

theorem Tiles.at_length (tiles : Tiles (wrapInt64 start) (before ++ t :: after))
    (sized : ∀ u ∈ before, (content u).length = u.unpackedLength) :
    t.fileStart = wrapInt64 (start + (before.flatMap content).length) ∧
      t.fileEnd = wrapInt64 (start + (before.flatMap content).length + t.unpackedLength) := by
  induction before generalizing start with
  | nil =>
    obtain ⟨starts, ends, -⟩ := tiles
    rw [wrapInt64_wrap_add] at ends
    exact ⟨by simpa using starts, by simpa using ends⟩
  | cons first before ih =>
    obtain ⟨starts, ends, tiles⟩ := tiles
    have size_eq := sized first (.head _)
    rw [ends, wrapInt64_wrap_add] at tiles
    obtain ⟨starts', ends'⟩ := ih tiles (fun u member => sized u (.tail _ member))
    have length_eq : start + (List.flatMap content (first :: before)).length =
        start + first.unpackedLength + (before.flatMap content).length := by
      rw [List.flatMap_cons, List.length_append, size_eq]
      push_cast
      omega
    rw [length_eq]
    exact ⟨starts', ends'⟩

/-- A term that holds an offset lies there when all terms together stay below the size of a machine word: the terms
behind the one that wraps around end before the file. -/
theorem Tiles.held (tiles : Tiles start (before ++ t :: after)) (machine : 0 ≤ start ∧ start ≤ maxInt64)
    (sized : ∀ u ∈ before ++ t :: after, (content u).length = u.unpackedLength)
    (fits : start + ((before ++ t :: after).flatMap content).length ≤ 2 ^ 64) (inside : 0 ≤ pos)
    (holds : t.fileStart ≤ pos ∧ pos < t.fileEnd) :
    t.fileStart = start + (before.flatMap content).length ∧ t.fileEnd = t.fileStart + t.unpackedLength := by
  have unwrapped : wrapInt64 start = start := wrapInt64_eq (by omega) machine.2
  rw [← unwrapped] at tiles
  obtain ⟨starts, ends⟩ := tiles.at_length fun u earlier => sized u (List.mem_append_left _ earlier)
  have size_eq := sized t (List.mem_append_right _ List.mem_cons_self)
  rw [List.flatMap_append, List.flatMap_cons, List.length_append, List.length_append, size_eq] at fits
  simp only [wrapInt64, Int.bmod, maxInt64] at starts ends machine
  split at starts <;> split at ends <;> omega

/-- The bytes of the file at the offsets of `[i, j)`, for terms that begin at `start`. -/
def fileBytes (content : ReconTerm → Bytes) (located : List ReconTerm) (start i j : Int) : Bytes :=
  slice (located.flatMap content) (i - start).toNat (j - start).toNat

theorem fileBytes_empty {i j : Int} (none_left : j ≤ i) : fileBytes content located start i j = [] := slice_empty (by omega)

theorem fileBytes_append {i j k : Int} (left : i ≤ j) (right : j ≤ k) :
    fileBytes content located start i j ++ fileBytes content located start j k = fileBytes content located start i k :=
  slice_append (by omega) (by omega)

theorem Tiles.share_append (tiles : Tiles start located) (machine : 0 ≤ start ∧ start ≤ maxInt64)
    (sized : ∀ u ∈ located, (content u).length = u.unpackedLength) (fits : start + (located.flatMap content).length ≤ 2 ^ 64)
    (member : t ∈ located) (inside : 0 ≤ pos) (holds : t.fileStart ≤ pos ∧ pos < t.fileEnd) (more : pos < stop) :
    slice (content t) (max pos t.fileStart - t.fileStart).toNat (min stop t.fileEnd - t.fileStart).toNat ++
        fileBytes content located start t.fileEnd stop = fileBytes content located start pos stop := by
  have size_eq := sized t member
  obtain ⟨before, after, rfl⟩ := List.append_of_mem member
  obtain ⟨starts, ends⟩ := tiles.held machine sized fits inside holds
  have share : slice (content t) (max pos t.fileStart - t.fileStart).toNat (min stop t.fileEnd - t.fileStart).toNat =
      slice ((before ++ t :: after).flatMap content) (pos - start).toNat
        (min (stop - start).toNat (t.fileEnd - start).toNat) := by
    have low : (pos - start).toNat = (before.flatMap content).length + (max pos t.fileStart - t.fileStart).toNat := by omega
    have high : min (stop - start).toNat (t.fileEnd - start).toNat =
        (before.flatMap content).length + (min stop t.fileEnd - t.fileStart).toNat := by omega
    rw [low, high, List.flatMap_append, List.flatMap_cons, slice_append_right, slice_append_left]
    omega
  rw [share]
  exact slice_min_append (by omega)

end

/-- What the reconstructions of a file have in common while its URLs are replaced: the same terms from the same offset on, of
which each has a content of the announced length that its chunks decode to. -/
structure Describes (base offsetFirst : Int) (terms : List TermJSON) (content : ReconTerm → Bytes) (w : Session) : Prop where
  prepared : w.recon.isSome = true
  accepted (n : Nat) : ∃ version fetch, normalize version base offsetFirst terms fetch = .ok (w.current n)
  sized (n : Nat) : ∀ t ∈ (w.current n).terms, (content t).length = t.unpackedLength
  decoded (n : Nat) : ∀ t ∈ (w.current n).terms, ∀ bytes, decodeTerm (w.serve n) (w.current (n + 1)) t = .ok bytes →
    bytes = content t

section
variable {base offsetFirst : Int} {terms : List TermJSON} {content : ReconTerm → Bytes} {w : Session} {located : List ReconTerm}

/-- The terms are those that the answers place, and together end below the size of a machine word. -/
structure Located (base offsetFirst : Int) (terms : List TermJSON) (content : ReconTerm → Bytes)
    (located : List ReconTerm) : Prop where
  placed : placeTerms 0 (wrapInt64 (base - offsetFirst)) terms = .ok located
  fits : wrapInt64 (base - offsetFirst) + (located.flatMap content).length ≤ 2 ^ 64

theorem Describes.terms_eq (described : Describes base offsetFirst terms content w)
    (locates : Located base offsetFirst terms content located) (n : Nat) : (w.current n).terms = located := by
  obtain ⟨version, fetch, accepted⟩ := described.accepted n
  obtain ⟨-, placed', -⟩ := normalize_ok accepted
  exact Except.ok.inj (placed'.symm.trans locates.placed)

theorem Describes.sizes (described : Describes base offsetFirst terms content w)
    (locates : Located base offsetFirst terms content located) : ∀ t ∈ located, (content t).length = t.unpackedLength :=
  described.terms_eq locates 0 ▸ described.sized 0

theorem Describes.machine (described : Describes base offsetFirst terms content w) :
    0 ≤ wrapInt64 (base - offsetFirst) ∧ wrapInt64 (base - offsetFirst) ≤ maxInt64 := by
  obtain ⟨version, fetch, accepted⟩ := described.accepted 0
  exact ⟨(normalize_ok accepted).1, (wrapInt64_bounds _).2⟩

/-- A stream is cut off by its error, or it is the whole range. -/
theorem streamTerms_bytes (described : Describes base offsetFirst terms content w)
    (locates : Located base offsetFirst terms content located) (inside : 0 ≤ pos) :
    (streamTerms w stop n pos).1 <+: fileBytes content located (wrapInt64 (base - offsetFirst)) pos stop ∧
      ((streamTerms w stop n pos).2 = none →
        (streamTerms w stop n pos).1 = fileBytes content located (wrapInt64 (base - offsetFirst)) pos stop) := by
  fun_induction streamTerms w stop n pos with
  | case1 n pos more e found => exact ⟨List.nil_prefix, fun clean => by cases clean⟩
  | case2 n pos more t found e failed => exact ⟨List.nil_prefix, fun clean => by cases clean⟩
  | case3 n pos more t found decoded decoded_eq lo hi rest ih =>
    obtain ⟨member, holds⟩ := termAt_ok found
    obtain ⟨cut, whole⟩ := ih (by omega)
    obtain rfl := described.decoded n t member decoded decoded_eq
    rw [described.terms_eq locates n] at member
    rw [← (placeTerms_tiles locates.placed).share_append described.machine (described.sizes locates) locates.fits member
      inside holds more]
    constructor
    · exact (List.prefix_append_right_inj _).mpr cut
    · intro clean
      exact congrArg _ (whole clean)
  | case4 n pos done =>
    rw [fileBytes_empty (by omega)]
    exact ⟨List.nil_prefix, fun _ => rfl⟩

theorem streamTerms_length (described : Describes base offsetFirst terms content w)
    (locates : Located base offsetFirst terms content located) (inside : 0 ≤ pos) (clean : (streamTerms w stop n pos).2 = none) :
    (streamTerms w stop n pos).1.length = (stop - pos).toNat := by
  fun_induction streamTerms w stop n pos with
  | case1 n pos more e found => cases clean
  | case2 n pos more t found e failed => cases clean
  | case3 n pos more t found decoded decoded_eq lo hi rest ih =>
    obtain ⟨member, holds⟩ := termAt_ok found
    have length_eq := ih (by omega) clean
    obtain rfl := described.decoded n t member decoded decoded_eq
    rw [described.terms_eq locates n] at member
    have sized := described.sizes locates
    have size_eq := sized t member
    have fits := locates.fits
    have tiles := placeTerms_tiles locates.placed
    obtain ⟨before, after, rfl⟩ := List.append_of_mem member
    obtain ⟨-, ends⟩ := tiles.held described.machine sized fits inside holds
    rw [List.length_append, length_eq, length_slice]
    omega
  | case4 n pos done =>
    rw [List.length_nil]
    omega

theorem openStream_inside (opened : openStream w size off length = .ok out) : 0 ≤ off ∧ 0 ≤ length ∧ off + length ≤ size := by
  rw [openStream] at opened
  split at opened
  · cases opened
  split at opened
  · cases opened
  · omega

theorem openStream_bytes (described : Describes base offsetFirst terms content w)
    (locates : Located base offsetFirst terms content located) (inside : 0 ≤ off ∧ 0 ≤ length ∧ off + length ≤ size) :
    ∃ bytes ended, openStream w size off length = .ok (bytes, ended) ∧
      bytes <+: fileBytes content located (wrapInt64 (base - offsetFirst)) off (off + length) ∧
      (ended = none → bytes = fileBytes content located (wrapInt64 (base - offsetFirst)) off (off + length) ∧
          bytes.length = length.toNat) := by
  obtain ⟨r, recon_eq⟩ := Option.isSome_iff_exists.mp described.prepared
  rw [openStream, recon_eq]
  simp only
  rw [if_neg (by omega)]
  split
  · rename_i zero
    subst zero
    rw [fileBytes_empty (by omega)]
    exact ⟨[], none, rfl, List.nil_prefix, fun _ => ⟨rfl, rfl⟩⟩
  · obtain ⟨cut, whole⟩ : (streamTerms w (off + length) 0 off).1 <+: _ ∧ _ := streamTerms_bytes described locates inside.1
    refine ⟨_, _, rfl, cut, ?_⟩
    intro clean
    constructor
    · exact whole clean
    · rw [streamTerms_length described locates inside.1 clean]
      omega

theorem openPieces_bytes {w : Nat → Session} {lengths : List Int}
    (described : ∀ i, Describes base offsetFirst terms content (w i))
    (locates : Located base offsetFirst terms content located) (opened : openPieces w size i off lengths = .ok bytes) :
    0 ≤ lengths.sum ∧ bytes = fileBytes content located (wrapInt64 (base - offsetFirst)) off (off + lengths.sum) := by
  induction lengths generalizing i off bytes with
  | nil =>
    cases opened
    constructor
    · exact Int.le_refl 0
    · rw [List.sum_nil, fileBytes_empty (by omega)]
  | cons length rest ih =>
    rw [openPieces] at opened
    split at opened
    · cases opened
    · cases opened
    rename_i first first_eq
    have inside := openStream_inside first_eq
    obtain ⟨first', ended, again, -, whole⟩ := openStream_bytes (described i) locates inside
    cases first_eq.symm.trans again
    cases later : openPieces w size (i + 1) (off + length) rest with
    | error e =>
      rw [later] at opened
      cases opened
    | ok tail =>
      rw [later] at opened
      cases opened
      obtain ⟨nonneg, tail_eq⟩ := ih later
      rw [List.sum_cons]
      constructor
      · omega
      · rw [(whole rfl).1, tail_eq, ← Int.add_assoc]
        exact fileBytes_append (by omega) (by omega)

/-- Every stream of a described file is a range of it, or it ends in an error behind a first part of the range; the streams of
consecutive pieces make up the stream of the whole; and every iteration moves the position on. -/
theorem streams_are_ranges {w : Nat → Session} (locates : Located base offsetFirst terms content located)
    (described : ∀ i, Describes base offsetFirst terms content (w i)) :
    (∀ i size off length, 0 ≤ off → 0 ≤ length → off + length ≤ size →
      ∃ bytes ended, openStream (w i) size off length = .ok (bytes, ended) ∧
        bytes <+: fileBytes content located (wrapInt64 (base - offsetFirst)) off (off + length) ∧
        (ended = none → bytes = fileBytes content located (wrapInt64 (base - offsetFirst)) off (off + length) ∧
            bytes.length = length.toNat)) ∧
    (∀ i j size off lengths pieces bytes, openPieces w size i off lengths = .ok pieces →
      openStream (w j) size off lengths.sum = .ok (bytes, none) → pieces = bytes) ∧
    ∀ i n pos t, termAt ((w i).current n).terms pos = .ok t → pos < t.fileEnd := by
  refine ⟨?_, ?_, ?_⟩
  · intro i size off length low nonneg high
    exact openStream_bytes (described i) locates ⟨low, nonneg, high⟩
  · intro i j size off lengths pieces bytes opened whole
    obtain ⟨-, pieces_eq⟩ := openPieces_bytes described locates opened
    obtain ⟨bytes', ended, again, -, exact_⟩ := openStream_bytes (described j) locates (openStream_inside whole)
    cases whole.symm.trans again
    rw [pieces_eq, (exact_ rfl).1]
  · intro i n pos t found
    exact (termAt_ok found).2.2

end

/-- What the one chunk of either xorb holds. -/
def eitherChunk (hash : XorbHash) : Bytes := if hash = "a" then [1] else [2, 3]

def steady (r : Reconstruction) : Session := ⟨some r, fun _ => r, fun _ hash _ => .ok [eitherChunk hash]⟩

def oneRange : FetchRange := ⟨"u", 0, 1, 0, 9⟩

/-- The terms of a partial answer do not start at the start of the file. -/
def offsetTerms : List ReconTerm := [⟨"b", 2, 0, 1, 2, 4⟩]

/-- The first term announces a byte more than its chunk has. -/
def overstatedTerms : List ReconTerm := [⟨"a", 2, 0, 1, 0, 2⟩, ⟨"b", 2, 0, 1, 2, 4⟩]

/-- The decoded terms joined are not the file if they do not begin with it, or if the length of a term that is not read is
wrong. -/
theorem streams_shifted :
    (normalize 2 3 1 [⟨"b", 2, 0, 1⟩] (fun _ => [oneRange]) = .ok ⟨2, 1, offsetTerms, fun _ => [oneRange]⟩ ∧
      openStream (steady ⟨2, 1, offsetTerms, fun _ => [oneRange]⟩) 4 2 2 = .ok ([2, 3], none) ∧
      slice (offsetTerms.flatMap fun t => eitherChunk t.xorb) 2 4 = []) ∧
    (normalize 2 0 0 [⟨"a", 2, 0, 1⟩, ⟨"b", 2, 0, 1⟩] (fun _ => [oneRange]) = .ok ⟨2, 0, overstatedTerms, fun _ => [oneRange]⟩ ∧
      openStream (steady ⟨2, 0, overstatedTerms, fun _ => [oneRange]⟩) 4 2 1 = .ok ([2], none) ∧
      slice (overstatedTerms.flatMap fun t => eitherChunk t.xorb) 2 3 = [3]) := by
  refine ⟨⟨?_, ?_, ?_⟩, ⟨?_, ?_, ?_⟩⟩
  · simp only [normalize, List.mergeSort_singleton]
    rfl
  · decide +kernel
  · decide
  · simp only [normalize, List.mergeSort_singleton]
    rfl
  · decide +kernel
  · decide

theorem streams_are_ranges_offset :
    openStream (steady ⟨2, 1, offsetTerms, fun _ => [oneRange]⟩) 4 2 2 = .ok ([2, 3], none) ∧
      [2, 3] = fileBytes (fun t => eitherChunk t.xorb) offsetTerms 2 2 4 := by
  have described : ∀ _ : Nat, Describes 3 1 [⟨"b", 2, 0, 1⟩] (fun t => eitherChunk t.xorb)
      (steady ⟨2, 1, offsetTerms, fun _ => [oneRange]⟩) := by
    intro _
    refine ⟨rfl, ?_, ?_, ?_⟩
    · intro _
      refine ⟨2, fun _ => [oneRange], ?_⟩
      simp only [normalize, List.mergeSort_singleton]
      rfl
    · intro _
      exact (by decide : ∀ t ∈ offsetTerms, (eitherChunk t.xorb).length = t.unpackedLength)
    · intro n t member bytes decoded
      obtain rfl := List.mem_singleton.mp member
      exact (Except.ok.inj decoded).symm
  obtain ⟨bytes, ended, opened, -, exact_⟩ :=
    (streams_are_ranges ⟨rfl, by decide⟩ described).1 0 4 2 2 (by decide) (by decide) (by decide)
  have ran : openStream (steady ⟨2, 1, offsetTerms, fun _ => [oneRange]⟩) 4 2 2 = .ok ([2, 3], none) := by decide +kernel
  cases ran.symm.trans opened
  exact ⟨ran, (exact_ rfl).1⟩

end Hfdl.Xet
