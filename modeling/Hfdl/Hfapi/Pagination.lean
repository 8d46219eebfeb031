import Hfdl.Indexed
import Hfdl.Relational.Table
import Mathlib.Data.List.Basic
import Mathlib.Data.List.Infix
import Mathlib.Data.List.Perm.Subperm

/-! The listing of a repository page by page: the reader of the `Link` header, and the loop that follows the next page
until there is none. A byte of a header is read as one character. -/
namespace Hfdl.Hfapi
open Indexed Relational

abbrev Chars := List Char

def quote : Char := '\x22'

def relNext : Chars := ['n', 'e', 'x', 't']

def wanted (rel : Chars) : Chars := ['r', 'e', 'l', '='] ++ quote :: (rel ++ [quote])

/-- The link of one segment of a header, if it has the relation and a target. -/
def segmentLink (want seg : Chars) : Option Chars :=
  if want <:+: seg then
    match seg.idxOf? '<', seg.idxOf? '>' with
    | some i, some j => if i + 1 < j then some (slice seg (i + 1) j) else none
    | _, _ => none
  else none

def linkRel (header rel : Chars) : Chars := ((header.splitOn ',').findSome? (segmentLink (wanted rel))).getD []

/-- A row that is neither a file nor a directory is only logged. -/
inductive RowType where
  | file
  | directory
  | other (name : String)
deriving DecidableEq

structure LfsJSON where
  oid : String
  sha256 : String
  size : Int
deriving DecidableEq

structure EntryJSON where
  type : RowType
  path : String
  size : Int
  oid : String
  lfs : Option LfsJSON
  xetHash : String
deriving DecidableEq

structure FileEntry where
  path : String
  size : Int
  gitOID : String
  sha256 : String
  xetHash : String
  isLFS : Bool
deriving DecidableEq

def EntryJSON.toFileEntry (e : EntryJSON) : FileEntry :=
  match e.lfs with
  | none => ⟨e.path, e.size, e.oid, "", e.xetHash, false⟩
  | some lfs =>
    let sha256 := if lfs.oid = "" then lfs.sha256 else lfs.oid
    ⟨e.path, if e.size = 0 then lfs.size else e.size, e.oid, sha256, e.xetHash, sha256 ≠ ""⟩

def fileRows (page : List EntryJSON) : List FileEntry :=
  page.filterMap fun row => if row.type = .file then some row.toFileEntry else none

/-- An answer with its `Link` header, what its body decodes to and the error of closing it. -/
structure Response where
  link : Chars
  body : Except String (List EntryJSON)
  closeErr : Option String

inductive TreeError (ε : Type u) where
  | request (err : ε)
  | decode (url : Chars) (err : String)
  | close (url : Chars) (err : String)
deriving DecidableEq

/-- The loop of `Tree` from a page on, with the requests it makes; no result when it takes more rounds than it is given. -/
def treeLoop (server : Chars → Except ε Response) :
    Nat → Chars → List FileEntry → List Chars → Option (Except (TreeError ε) (List FileEntry) × List Chars)
  | 0, _, _, _ => none
  | rounds + 1, u, out, sent =>
    if u = [] then some (.ok out, sent)
    else match server u with
      | .error err => some (.error (.request err), sent ++ [u])
      | .ok resp => match resp.body with
        | .error err => some (.error (.decode u err), sent ++ [u])
        | .ok page => match resp.closeErr with
          | some err => some (.error (.close u err), sent ++ [u])
          | none => treeLoop server rounds (linkRel resp.link relNext) (out ++ fileRows page) (sent ++ [u])

/-- The listing from its first page, whose address is not empty. -/
def tree (server : Chars → Except ε Response) (rounds : Nat) (first : Chars) :
    Option (Except (TreeError ε) (List FileEntry) × List Chars) :=
  treeLoop server rounds first [] []

/-! ### Rendered headers -/

structure Link where
  uri : Chars
  rel : Chars
deriving DecidableEq

def Link.render (l : Link) : Chars := '<' :: l.uri ++ '>' :: ';' :: ' ' :: wanted l.rel

def renderHeader : List Link → Chars
  | [] => []
  | [l] => l.render
  | l :: links => l.render ++ ',' :: ' ' :: renderHeader links

def nextOf (links : List Link) : Chars := ((links.find? fun l => l.rel = relNext).map Link.uri).getD []

/-- A quoted relation and an address free of the closing bracket. -/
structure Link.Renders (l : Link) : Prop where
  bracket : '>' ∉ l.uri
  quoted : quote ∉ l.rel

def afterOpen (text : Chars) : Option Chars :=
  match text.dropWhile (· != '<') with
  | _ :: c :: rest => some (c :: rest)
  | _ => none

def lastPart (text : Chars) : Chars := (text.splitOn ',').getLastD []

/-- The address that the splitter takes from a link: it sees what follows the last comma, and it takes a text of the
relation inside of an address for the relation. -/
def Link.taken (l : Link) : Option Chars :=
  if l.rel = relNext ∨ wanted relNext <:+: lastPart l.uri then
    afterOpen (if ',' ∈ l.uri then lastPart l.uri else '<' :: l.uri)
  else none

def takenOf (links : List Link) : Chars := (links.findSome? Link.taken).getD []

/-- The first address that is taken is that of the first link to a next page; where none is taken, that link has none. -/
def Reads (links : List Link) : Prop :=
  match links.findSome? Link.taken with
  | none => ∀ l, links.find? (fun l => l.rel = relNext) = some l → l.uri = []
  | some text => ∃ l, links.find? (fun l => l.rel = relNext) = some l ∧ l.uri = text

section
variable {α : Type u} {w a b : List α} {c : α}

theorem infix_cut (free : c ∉ w) (inside : w <:+: a ++ c :: b) : w <:+: a ∨ w <:+: b := by
  have starts {v : List α} (within : ∀ x ∈ v, x ∈ w) (begins : v <+: c :: b) : v = [] := by
    cases v with
    | nil => rfl
    | cons x v =>
      obtain ⟨rfl, -⟩ := List.cons_prefix_cons.mp begins
      exact absurd (within x List.mem_cons_self) free
  rcases List.infix_append_iff.mp inside with left | right | ⟨v, v', rfl, ends, begins⟩
  · exact .inl left
  · rcases List.infix_cons_iff.mp right with here | later
    · rw [starts (fun _ member => member) here]
      exact .inl List.nil_infix
    · exact .inr later
  · rw [starts (fun _ member => List.mem_append_right v member) begins, List.append_nil]
    exact .inl ends.isInfix

theorem cut_unique {a' b' : List α} (free : c ∉ a) (free' : c ∉ a') (same : a ++ c :: b = a' ++ c :: b') : a = a' ∧ b = b' := by
  induction a generalizing a' with
  | nil =>
    cases a' with
    | nil => exact ⟨rfl, (List.cons.inj same).2⟩
    | cons x a' => exact absurd ((List.cons.inj same).1 ▸ List.mem_cons_self) free'
  | cons x a ih =>
    cases a' with
    | nil => exact absurd ((List.cons.inj same).1 ▸ List.mem_cons_self) free
    | cons y a' =>
      obtain ⟨rfl, rest⟩ := List.cons.inj same
      obtain ⟨rfl, rfl⟩ := ih (List.not_mem_of_not_mem_cons free) (List.not_mem_of_not_mem_cons free') rest
      exact ⟨rfl, rfl⟩

theorem infix_intercalate {l sep : List α} {ls : List (List α)} (member : l ∈ ls) : l <:+: sep.intercalate ls := by
  induction ls with
  | nil => cases member
  | cons x ls ih =>
    by_cases last : ls = []
    · subst last
      obtain rfl := List.mem_singleton.mp member
      simp
    · rw [List.intercalate_cons_of_ne_nil last]
      rcases List.mem_cons.mp member with rfl | later
      · rw [List.append_assoc]
        exact (List.prefix_append ..).isInfix
      · exact (ih later).trans (List.suffix_append ..).isInfix

end

theorem infix_of_mem_split {xs seg : Chars} (member : seg ∈ xs.splitOn c) : seg <:+: xs := by
  have inside : seg <:+: [c].intercalate (xs.splitOn c) := infix_intercalate member
  rwa [List.intercalate_splitOn] at inside

theorem findSome?_absent {xs : Chars} (absent : ¬ want <:+: xs) : (xs.splitOn ',').findSome? (segmentLink want) = none := by
  apply List.findSome?_eq_none_iff.mpr
  intro seg member
  exact if_neg fun inside => absent (inside.trans (infix_of_mem_split member))

theorem relation_of_inside (quoted : quote ∉ rel) (inside : wanted relNext <:+: wanted rel) : rel = relNext := by
  obtain ⟨before, after, same⟩ := inside
  -- both texts have two quotes, so there is none before or after the word
  have counts := congrArg (List.count quote) same
  have none_in : (wanted rel).count quote = 2 := by
    simp only [wanted, List.count_append, List.count_cons_self, List.count_eq_zero.mpr quoted]
    decide
  have two : (wanted relNext).count quote = 2 := by decide
  rw [List.count_append, List.count_append, none_in, two] at counts
  have free : quote ∉ before := List.count_eq_zero.mp (by omega)
  have whole : (before ++ ['r', 'e', 'l', '=']) ++ quote :: (relNext ++ quote :: after) =
      ['r', 'e', 'l', '='] ++ quote :: (rel ++ [quote]) := by
    simpa only [wanted, List.append_assoc, List.cons_append, List.nil_append] using same
  have first : quote ∉ before ++ ['r', 'e', 'l', '='] := fun member => (List.mem_append.mp member).elim free (by decide)
  obtain ⟨-, relation⟩ := cut_unique first (by decide) whole
  exact (cut_unique (by decide) quoted relation).1.symm

theorem not_infix_spaces {pre : Chars} (spaces : ∀ c ∈ pre, c = ' ') : ¬ wanted relNext <:+: pre := by
  intro inside
  have first : 'r' ∈ pre := inside.subset (by decide)
  exact absurd (spaces _ first) (by decide)

theorem idxOf?_cut {a b : Chars} (free : c ∉ a) : (a ++ c :: b).idxOf? c = some a.length := by
  induction a with
  | nil => simp [List.idxOf?_cons]
  | cons x a ih =>
    have other : x ≠ c := fun same => free (same ▸ List.mem_cons_self)
    simp [List.idxOf?_cons, other, ih (List.not_mem_of_not_mem_cons free)]

theorem le_idxOf? {a b : Chars} (free : c ∉ a) (found : (a ++ b).idxOf? c = some i) : a.length ≤ i := by
  induction a generalizing i with
  | nil => exact Nat.zero_le i
  | cons x a ih =>
    have other : x ≠ c := fun same => free (same ▸ List.mem_cons_self)
    rw [List.cons_append, List.idxOf?_cons, if_neg (by simpa using other)] at found
    obtain ⟨j, later, rfl⟩ := Option.map_eq_some_iff.mp found
    exact Nat.succ_le_succ (ih (List.not_mem_of_not_mem_cons free) later)

theorem afterOpen_append (free : '<' ∉ pre) (text : Chars) : afterOpen (pre ++ text) = afterOpen text := by
  rw [afterOpen, afterOpen, List.dropWhile_append_of_pos]
  intro c member
  simp only [bne_iff_ne]
  rintro rfl
  exact free member

theorem segmentLink_closing (open_ : '>' ∉ text) (rest : Chars) :
    segmentLink want (text ++ '>' :: rest) = if want <:+: text ++ '>' :: rest then afterOpen text else none := by
  unfold segmentLink
  split
  · rw [idxOf?_cut open_]
    by_cases opens : '<' ∈ text
    · obtain ⟨before, after, rfl, free⟩ := List.eq_append_cons_of_mem opens
      have start : afterOpen (before ++ '<' :: after) = afterOpen ('<' :: after) := afterOpen_append free _
      rw [List.append_assoc, List.cons_append, idxOf?_cut free, start]
      cases after with
      | nil => simp [afterOpen]
      | cons c after =>
        have parts : before ++ '<' :: (c :: after ++ '>' :: rest) = ((before ++ ['<']) ++ c :: after) ++ '>' :: rest := by simp
        have upTo : (before ++ '<' :: c :: after).length = ((before ++ ['<']) ++ c :: after).length := by simp
        have from_ : before.length + 1 = (before ++ ['<']).length := by simp
        simp only
        rw [if_pos (by simp), slice, parts, upTo, List.take_left, from_, List.drop_left]
        rfl
    · have none_ : afterOpen text = none := by
        have whole := afterOpen_append opens []
        rwa [List.append_nil] at whole
      rw [none_]
      -- a bracket that opens later does not count
      cases found : (text ++ '>' :: rest).idxOf? '<' with
      | none => rfl
      | some i =>
        have later := le_idxOf? opens found
        simp only
        rw [if_neg (by omega)]
  · rfl

theorem findSome?_unclosed {xs : Chars} (open_ : '>' ∉ xs) : (xs.splitOn ',').findSome? (segmentLink want) = none := by
  apply List.findSome?_eq_none_iff.mpr
  intro seg member
  have free : '>' ∉ seg := fun inside => open_ ((infix_of_mem_split member).subset inside)
  have none_ : seg.idxOf? '>' = none := List.idxOf?_eq_none_iff.mpr free
  unfold segmentLink
  rw [none_]
  split <;> (try split) <;> first | rfl | (rename_i never; cases never)

theorem last_comma {text : Chars} (member : ',' ∈ text) : ∃ front part, text = front ++ ',' :: part ∧ ',' ∉ part := by
  induction text with
  | nil => cases member
  | cons c text ih =>
    by_cases later : ',' ∈ text
    · obtain ⟨front, part, rfl, free⟩ := ih later
      exact ⟨c :: front, part, rfl, free⟩
    · obtain rfl := (List.mem_cons.mp member).resolve_right later
      exact ⟨[], text, rfl, later⟩

theorem splitOn_cut (a b : Chars) : (a ++ ',' :: b).splitOn ',' = a.splitOn ',' ++ b.splitOn ',' :=
  List.splitOnP_append_cons _ _ (by decide)

theorem lastPart_cut (free : ',' ∉ part) (front : Chars) : lastPart (front ++ ',' :: part) = part := by
  rw [lastPart, splitOn_cut, List.splitOn_eq_singleton free]
  simp

theorem lastPart_whole (free : ',' ∉ text) : lastPart text = text := by
  rw [lastPart, List.splitOn_eq_singleton free]
  rfl

/-- The relation of a segment is the quoted one, or a text of it before the closing bracket. -/
theorem wanted_closing (quoted : quote ∉ rel) (text : Chars) :
    wanted relNext <:+: text ++ '>' :: ';' :: ' ' :: wanted rel ↔ rel = relNext ∨ wanted relNext <:+: text := by
  constructor
  · intro inside
    rcases infix_cut (by decide) inside with here | inside
    · exact .inr here
    rcases infix_cut (a := [';']) (by decide) inside with here | inside
    · exact absurd (here.subset (by decide : 'r' ∈ wanted relNext)) (by decide)
    · exact .inl (relation_of_inside quoted inside)
  · rintro (rfl | here)
    · exact ⟨text ++ ['>', ';', ' '], [], by simp⟩
    · exact here.trans (List.prefix_append ..).isInfix

theorem few_quotes {text : Chars} (few : text.count quote < 2) : ¬ wanted relNext <:+: text := by
  intro inside
  have most := inside.sublist.count_le quote
  have two : (wanted relNext).count quote = 2 := by decide
  omega

theorem findSome?_closing (free : ',' ∉ text) (open_ : '>' ∉ text) (quoted : quote ∉ rel) :
    ((text ++ '>' :: ';' :: ' ' :: wanted rel).splitOn ',').findSome? (segmentLink (wanted relNext)) =
      if rel = relNext ∨ wanted relNext <:+: text then afterOpen text else none := by
  by_cases comma : ',' ∈ rel
  · -- the relation is cut, and none of its parts has two quotes
    obtain ⟨first, later, rfl, free'⟩ := List.eq_append_cons_of_mem comma
    simp only [List.mem_append, List.mem_cons, not_or] at quoted
    have other : first ++ ',' :: later ≠ relNext := fun same => absurd (same ▸ comma) (by decide)
    have cut : text ++ '>' :: ';' :: ' ' :: wanted (first ++ ',' :: later) =
        (text ++ '>' :: ';' :: ' ' :: 'r' :: 'e' :: 'l' :: '=' :: quote :: first) ++ ',' :: (later ++ [quote]) := by
      simp [wanted]
    have whole : ',' ∉ text ++ '>' :: ';' :: ' ' :: 'r' :: 'e' :: 'l' :: '=' :: quote :: first := by
      simp [quote, free, free']
    have inside : wanted relNext <:+: text ++ '>' :: ';' :: ' ' :: 'r' :: 'e' :: 'l' :: '=' :: quote :: first ↔
      wanted relNext <:+: text := by
      refine ⟨fun inside => (infix_cut (by decide) inside).resolve_right (few_quotes ?_),
        fun here => here.trans (List.prefix_append ..).isInfix⟩
      have none_ := List.count_eq_zero.mpr quoted.1
      simp only [quote] at none_ ⊢
      simp [none_]
    have rest : (later ++ [quote]).count quote < 2 := by
      simp [List.count_eq_zero.mpr quoted.2.2]
    rw [cut, splitOn_cut, List.findSome?_append, List.splitOn_eq_singleton whole, List.findSome?_singleton,
      segmentLink_closing open_,
      findSome?_absent (few_quotes rest), Option.or_none]
    simp only [inside, other, false_or]
  · have whole : ',' ∉ text ++ '>' :: ';' :: ' ' :: wanted rel := by
      simp [wanted, quote, free, comma]
    rw [List.splitOn_eq_singleton whole, List.findSome?_singleton, segmentLink_closing open_,
      if_congr (wanted_closing quoted text) rfl rfl]

theorem findSome?_render {l : Link} (renders : l.Renders) (spaces : ∀ c ∈ pre, c = ' ') :
    ((pre ++ l.render).splitOn ',').findSome? (segmentLink (wanted relNext)) = l.taken := by
  have blank (c : Char) (other : c ≠ ' ') : c ∉ pre := fun member => other (spaces c member)
  unfold Link.taken
  by_cases comma : ',' ∈ l.uri
  · obtain ⟨front, part, whole, free⟩ := last_comma comma
    have bracket := renders.bracket
    rw [whole] at bracket
    have cut : pre ++ l.render = (pre ++ '<' :: front) ++ ',' :: (part ++ '>' :: ';' :: ' ' :: wanted l.rel) := by
      simp [Link.render, whole]
    have unclosed : '>' ∉ pre ++ '<' :: front := by
      simp only [List.mem_append, List.mem_cons, not_or] at bracket ⊢
      exact ⟨blank _ (by decide), by decide, bracket.1⟩
    have open_ : '>' ∉ part := fun member => bracket (List.mem_append_right _ (List.mem_cons_of_mem _ member))
    rw [cut, splitOn_cut, List.findSome?_append, findSome?_unclosed unclosed, Option.none_or,
      findSome?_closing free open_ renders.quoted, if_pos comma,
      whole, lastPart_cut free]
  · have cut : pre ++ l.render = (pre ++ '<' :: l.uri) ++ '>' :: ';' :: ' ' :: wanted l.rel := by
      simp [Link.render]
    have inside : wanted relNext <:+: pre ++ '<' :: l.uri ↔ wanted relNext <:+: l.uri := by
      refine ⟨fun inside => (infix_cut (by decide) inside).resolve_left (not_infix_spaces spaces), fun inside => inside.trans ?_⟩
      exact ⟨pre ++ ['<'], [], by simp⟩
    rw [cut, findSome?_closing (by simp [blank ',' (by decide), comma]) (by simp [blank '>' (by decide), renders.bracket])
      renders.quoted,
      if_congr (or_congr_right inside) rfl rfl, afterOpen_append (blank _ (by decide)), if_neg comma, lastPart_whole comma]

theorem findSome?_header {links : List Link} (pre : Chars) (renders : ∀ l ∈ links, l.Renders) (spaces : ∀ c ∈ pre, c = ' ') :
    ((pre ++ renderHeader links).splitOn ',').findSome? (segmentLink (wanted relNext)) = links.findSome? Link.taken := by
  induction links generalizing pre with
  | nil =>
    rw [renderHeader, List.append_nil, findSome?_absent (not_infix_spaces spaces)]
    rfl
  | cons l links ih =>
    have one := findSome?_render (renders l List.mem_cons_self) spaces
    have later := ih [' '] (fun l' member => renders l' (List.mem_cons_of_mem _ member)) (by simp)
    rw [List.findSome?_cons, ← one]
    cases links with
    | nil =>
      rw [renderHeader]
      cases ((pre ++ l.render).splitOn ',').findSome? (segmentLink (wanted relNext)) <;> rfl
    | cons l' links =>
      have split : (pre ++ renderHeader (l :: l' :: links)).splitOn ',' =
          (pre ++ l.render).splitOn ',' ++ ([' '] ++ renderHeader (l' :: links)).splitOn ',' := by
        rw [renderHeader, ← List.append_assoc]
        · exact splitOn_cut _ _
        · simp
      rw [split, List.findSome?_append, later]
      cases ((pre ++ l.render).splitOn ',').findSome? (segmentLink (wanted relNext)) <;> rfl

theorem linkRel_render {links : List Link} (renders : ∀ l ∈ links, l.Renders) :
    linkRel (renderHeader links) relNext = takenOf links := by
  have found := findSome?_header [] renders (by simp)
  rw [List.nil_append] at found
  rw [linkRel, found, takenOf]

theorem taken_ne_nil {l : Link} : l.taken ≠ some [] := by
  unfold Link.taken afterOpen
  split
  · split <;> simp
  · simp

theorem reads_iff (links : List Link) : takenOf links = nextOf links ↔ Reads links := by
  unfold takenOf nextOf Reads
  cases taken : links.findSome? Link.taken with
  | none =>
    cases links.find? (fun l => l.rel = relNext) with
    | none => simp
    | some l => simp [eq_comm]
  | some text =>
    obtain ⟨l, -, here⟩ := List.exists_of_findSome?_eq_some taken
    have filled : text ≠ [] := fun empty => taken_ne_nil (empty ▸ here)
    cases links.find? (fun l => l.rel = relNext) with
    | none => simp [filled]
    | some l => simp [eq_comm]

/-! ### Pages -/

structure Page where
  links : List Link
  rows : List EntryJSON

/-- A finite map from addresses to pages. -/
abbrev Pages := Table (Chars × Page) Prod.fst

def serve (pages : Pages) (u : Chars) : Except Unit Response :=
  match pages.get u with
  | none => .error ()
  | some (_, page) => .ok ⟨renderHeader page.links, .ok page.rows, none⟩

/-- The pages from an address on, each the next page of the one before. -/
inductive Chain (pages : Pages) (next : List Link → Chars) : Chars → List (Chars × Page) → Chars → Prop where
  | stop : Chain pages next u [] u
  | visit : u ≠ [] → pages.get u = some (u, p) → Chain pages next (next p.links) chain last →
      Chain pages next u ((u, p) :: chain) last

def Acyclic (pages : Pages) (first : Chars) : Prop :=
  ∀ chain last, Chain pages nextOf first chain last → (chain.map Prod.fst).Nodup

def Ends (pages : Pages) (last : Chars) : Prop := last = [] ∨ pages.get last = none

section
variable {pages : Pages} {next next' : List Link → Chars}

theorem Chain.mem (linked : Chain pages next first chain last) : ∀ e ∈ chain, e ∈ pages := by
  induction linked with
  | stop => exact fun e member => absurd member List.not_mem_nil
  | visit _ found _ ih =>
    intro e member
    rcases List.mem_cons.mp member with rfl | later
    · exact (Table.get_eq_some.mp found).1
    · exact ih e later

theorem Chain.snoc (linked : Chain pages next first chain last) (filled : last ≠ []) (found : pages.get last = some (last, p)) :
    Chain pages next first (chain ++ [(last, p)]) (next p.links) := by
  induction linked with
  | stop => exact .visit filled found .stop
  | visit filled' found' _ ih => exact .visit filled' found' (ih filled found)

theorem Acyclic.bounded (acyclic : Acyclic pages first) (linked : Chain pages nextOf first chain last) :
    chain.length ≤ pages.rows.length := by
  have distinct := acyclic chain last linked
  have inside : chain.map Prod.fst ⊆ pages.rows.map Prod.fst := by
    intro u member
    obtain ⟨e, within, rfl⟩ := List.mem_map.mp member
    exact List.mem_map_of_mem (linked.mem e within)
  have fewer := (List.subperm_of_subset distinct inside).length_le
  simpa only [List.length_map] using fewer

theorem exists_chain (pages : Pages) (next : List Link → Chars) (first : Chars) (n : Nat) :
    ∃ chain last, Chain pages next first chain last ∧ (Ends pages last ∨ chain.length = n) := by
  induction n with
  | zero => exact ⟨[], first, .stop, .inr rfl⟩
  | succ n ih =>
    obtain ⟨chain, last, linked, ends | length⟩ := ih
    · exact ⟨chain, last, linked, .inl ends⟩
    · by_cases ends : Ends pages last
      · exact ⟨chain, last, linked, .inl ends⟩
      · obtain ⟨filled, present⟩ := not_or.mp ends
        obtain ⟨⟨u, p⟩, found⟩ := Option.ne_none_iff_exists'.mp present
        obtain rfl : u = last := (Table.get_eq_some.mp found).2
        exact ⟨chain ++ [(u, p)], _, linked.snoc filled found, .inr (by rw [List.length_append, length]; rfl)⟩

theorem not_ends (filled : u ≠ []) (found : pages.get u = some e) : ¬ Ends pages u := by
  rintro (empty | missing)
  · exact filled empty
  · rw [missing] at found
    cases found

theorem Chain.is_start (linked : Chain pages next first chain last) (whole : Chain pages next first chain' last')
    (ends : Ends pages last') :
    chain <+: chain' := by
  induction linked generalizing chain' with
  | stop => exact List.nil_prefix
  | visit filled found _ ih =>
    cases whole with
    | stop => exact absurd ends (not_ends filled found)
    | visit _ found' rest =>
      rw [found] at found'
      cases found'
      exact List.cons_prefix_cons.mpr ⟨rfl, ih rest⟩

theorem Chain.last_unique (linked : Chain pages next first chain last) (again : Chain pages next first chain last') :
    last = last' := by
  induction linked with
  | stop =>
    cases again
    rfl
  | visit _ _ _ ih =>
    cases again with
    | visit _ _ rest => exact ih rest

theorem Chain.unique (linked : Chain pages next first chain last) (ends : Ends pages last)
    (whole : Chain pages next first chain' last')
    (ends' : Ends pages last') : chain = chain' ∧ last = last' := by
  obtain rfl : chain = chain' := (linked.is_start whole ends').eq_of_length_le (whole.is_start linked ends).length_le
  exact ⟨rfl, linked.last_unique whole⟩

theorem acyclic_of_ends (whole : Chain pages nextOf first chain last) (ends : Ends pages last)
    (distinct : (chain.map Prod.fst).Nodup) :
    Acyclic pages first := fun _ _ linked => distinct.sublist ((linked.is_start whole ends).sublist.map _)

theorem Acyclic.ends (acyclic : Acyclic pages first) : ∃ chain last, Chain pages nextOf first chain last ∧ Ends pages last := by
  obtain ⟨chain, last, linked, ends | long⟩ := exists_chain pages nextOf first (pages.rows.length + 1)
  · exact ⟨chain, last, linked, ends⟩
  · have := acyclic.bounded linked
    omega

/-- The addresses that are asked for along a chain that ends. -/
def asked (chain : List (Chars × Page)) (last : Chars) : List Chars := chain.map Prod.fst ++ if last = [] then [] else [last]

theorem Chain.head_asked (linked : Chain pages next first chain last) :
    (asked chain last).head? = if first = [] then none else some first := by
  cases linked with
  | stop =>
    unfold asked
    split <;> rfl
  | visit filled _ _ =>
    rw [if_neg filled]
    rfl

theorem Chain.agree (linked : Chain pages next first chain last) (ends : Ends pages last)
    (linked' : Chain pages next' first chain' last')
    (ends' : Ends pages last') (same : asked chain last = asked chain' last') :
    ∀ e ∈ chain, next e.2.links = next' e.2.links := by
  induction linked generalizing chain' with
  | stop => exact fun e never => absurd never List.not_mem_nil
  | visit filled found rest ih =>
    rename_i u p chain last
    cases linked' with
    | stop => exact absurd ends' (not_ends filled found)
    | visit _ found' rest' =>
      rw [found] at found'
      cases found'
      have later := (List.cons.inj same).2
      have heads := rest.head_asked.symm.trans ((congrArg List.head? later).trans rest'.head_asked)
      have onward : next p.links = next' p.links := by
        split at heads <;> rename_i empty <;> split at heads <;> rename_i empty'
        · rw [empty, empty']
        · cases heads
        · cases heads
        · exact Option.some.inj heads
      intro e member
      rcases List.mem_cons.mp member with rfl | member
      · exact onward
      · exact ih ends (onward ▸ rest') later e member

theorem Chain.congr (linked : Chain pages next first chain last) (same : ∀ e ∈ chain, next e.2.links = next' e.2.links) :
    Chain pages next' first chain last := by
  induction linked with
  | stop => exact .stop
  | visit filled found _ ih =>
    refine .visit filled found ?_
    rw [← same _ List.mem_cons_self]
    exact ih fun e member => same e (List.mem_cons_of_mem _ member)

section
variable (renders : ∀ e ∈ pages, ∀ l ∈ e.2.links, l.Renders)
include renders

/-- The loop walks the chain of the addresses that are taken, one request a page. -/
theorem treeLoop_chain (linked : Chain pages takenOf first chain last) :
    treeLoop (serve pages) (chain.length + rounds) first out sent =
      treeLoop (serve pages) rounds last (out ++ chain.flatMap fun e => fileRows e.2.rows) (sent ++ chain.map Prod.fst) := by
  induction linked generalizing out sent with
  | stop => simp
  | visit filled found _ ih =>
    rename_i u p chain last _
    have links := renders _ (Table.get_eq_some.mp found).1
    rw [List.length_cons, Nat.add_right_comm, treeLoop, if_neg filled, serve, found]
    simp only
    rw [linkRel_render links, ih, List.flatMap_cons, List.map_cons, List.append_assoc, List.append_assoc, List.singleton_append]

/-- Once that chain ends the loop does, with its rows or with the error of the page that is missing. -/
theorem tree_of_chain (linked : Chain pages takenOf first chain last) (ends : Ends pages last) (rounds : Nat)
    (enough : chain.length < rounds) :
    tree (serve pages) rounds first =
      some (if last = [] then .ok (chain.flatMap fun e => fileRows e.2.rows) else .error (.request ()), asked chain last) := by
  obtain ⟨spare, rfl⟩ := Nat.exists_eq_add_of_lt enough
  rw [tree, Nat.add_assoc, treeLoop_chain renders linked, treeLoop, List.nil_append, List.nil_append]
  by_cases empty : last = []
  · simp [empty, asked]
  · simp only [if_neg empty, serve, ends.resolve_left empty, asked]

theorem tree_ends_iff (first : Chars) : (∃ rounds result, tree (serve pages) rounds first = some result) ↔
    ∃ chain last, Chain pages takenOf first chain last ∧ Ends pages last := by
  constructor
  · rintro ⟨rounds, result, ended⟩
    obtain ⟨chain, last, linked, ends | length⟩ := exists_chain pages takenOf first rounds
    · exact ⟨chain, last, linked, ends⟩
    · have walked : treeLoop (serve pages) (chain.length + 0) first [] [] = _ := treeLoop_chain renders linked
      rw [Nat.add_zero, length] at walked
      rw [tree, walked] at ended
      cases ended
  · rintro ⟨chain, last, linked, ends⟩
    exact ⟨_, _, tree_of_chain renders linked ends _ (Nat.lt_succ_self _)⟩

end

/-- The listing is the file rows of the pages along the chain of next pages, in order and with one request a page; a
chain that leads to an address without a page ends in that error. -/
def Listed (pages : Pages) (first : Chars) : Prop :=
  ∃ chain last, Chain pages nextOf first chain last ∧ Ends pages last ∧ ∀ rounds > chain.length,
    tree (serve pages) rounds first =
      some (if last = [] then .ok (chain.flatMap fun e => fileRows e.2.rows) else .error (.request ()), asked chain last)

theorem listed_iff (renders : ∀ e ∈ pages, ∀ l ∈ e.2.links, l.Renders) (acyclic : Acyclic pages first) :
    Listed pages first ↔ ∀ chain last, Chain pages nextOf first chain last → ∀ e ∈ chain, Reads e.2.links := by
  constructor
  · rintro ⟨chain, last, linked, ends, listed⟩ chain' last' linked' e member
    obtain ⟨walked, end_, taken, ends'⟩ := (tree_ends_iff renders first).mp ⟨_, _, listed _ (Nat.lt_succ_self _)⟩
    have both := (listed (max chain.length walked.length + 1) (by omega)).symm.trans
      (tree_of_chain renders taken ends' (max chain.length walked.length + 1) (by omega))
    have same := (Prod.mk.inj (Option.some.inj both)).2
    rw [← reads_iff]
    exact (linked.agree ends taken ends' same e ((linked'.is_start linked ends).mem member)).symm
  · intro reads
    obtain ⟨chain, last, linked, ends⟩ := acyclic.ends
    have taken := linked.congr fun e member => ((reads_iff _).mpr (reads chain last linked e member)).symm
    exact ⟨chain, last, linked, ends, fun rounds enough => tree_of_chain renders taken ends rounds enough⟩

/-- The reader finds the first link to a next page exactly in the headers that it reads right. A chain of next pages
without a repetition is listed, and every listing ends, exactly if there is no repetition and the headers along the chain
are read right, or there is one and the chain of what is read ends. -/
theorem tree_pages (renders : ∀ e ∈ pages, ∀ l ∈ e.2.links, l.Renders) (first : Chars) :
    (∀ links : List Link, (∀ l ∈ links, l.Renders) → (linkRel (renderHeader links) relNext = nextOf links ↔ Reads links)) ∧
      (((Acyclic pages first → Listed pages first) ∧ ∃ rounds result, tree (serve pages) rounds first = some result) ↔
        (Acyclic pages first ∧ ∀ chain last, Chain pages nextOf first chain last → ∀ e ∈ chain, Reads e.2.links) ∨
        (¬ Acyclic pages first ∧ ∃ chain last, Chain pages takenOf first chain last ∧ Ends pages last)) := by
  refine ⟨fun links renders => by rw [linkRel_render renders, reads_iff], ?_⟩
  by_cases acyclic : Acyclic pages first
  · rw [← listed_iff renders acyclic]
    simp only [acyclic, true_and, not_true_eq_false, false_and, or_false, forall_const, and_iff_left_iff_imp]
    rintro ⟨chain, last, -, -, listed⟩
    exact ⟨_, _, listed _ (Nat.lt_succ_self _)⟩
  · rw [← tree_ends_iff renders first]
    simp only [acyclic, false_implies, true_and, false_and, false_or, not_false_eq_true]

end

/-- Two pages; the first has a link of another relation before the one to the second. -/
def twoPages : Pages :=
  ⟨[(['a'], ⟨[⟨['z'], ['l', 'a', 's', 't']⟩, ⟨['b'], relNext⟩],
    [⟨.file, "x", 1, "o", none, ""⟩, ⟨.directory, "d", 0, "", none, ""⟩]⟩),
    (['b'], ⟨[], [⟨.file, "y", 2, "p", none, ""⟩]⟩)], by decide⟩

theorem tree_pages_two :
    tree (serve twoPages) 3 ['a'] = some (.ok [⟨"x", 1, "o", "", "", false⟩, ⟨"y", 2, "p", "", "", false⟩], [['a'], ['b']]) := by
  have whole : Chain twoPages nextOf ['a'] twoPages.rows [] := .visit (by decide) rfl (.visit (by decide) rfl .stop)
  have acyclic := acyclic_of_ends whole (.inl rfl) (by decide)
  have renders : ∀ e ∈ twoPages, ∀ l ∈ e.2.links, l.Renders := by
    have all : ∀ e ∈ twoPages.rows, ∀ l ∈ e.2.links, '>' ∉ l.uri ∧ quote ∉ l.rel := by decide
    exact fun e member l link => ⟨(all e member l link).1, (all e member l link).2⟩
  have reads : ∀ e ∈ twoPages.rows, Reads e.2.links := by
    have all : ∀ e ∈ twoPages.rows, takenOf e.2.links = nextOf e.2.links := by decide +kernel
    exact fun e member => (reads_iff _).mp (all e member)
  obtain ⟨listed, -⟩ := (tree_pages renders ['a']).2.mpr
    (.inl ⟨acyclic, fun chain last linked e member => reads e ((linked.is_start whole (.inl rfl)).mem member)⟩)
  obtain ⟨chain, last, linked, ends, rows⟩ := listed acyclic
  obtain ⟨rfl, rfl⟩ := linked.unique ends whole (.inl rfl)
  rw [rows 3 (by decide)]
  decide

def selfPage : Pages := ⟨[(['a'], ⟨[⟨['a'], relNext⟩], []⟩)], by decide⟩

theorem selfPage_loops (rounds : Nat) : treeLoop (serve selfPage) rounds ['a'] out sent = none := by
  have renders : ∀ e ∈ selfPage, ∀ l ∈ e.2.links, l.Renders := by
    have all : ∀ e ∈ selfPage.rows, ∀ l ∈ e.2.links, '>' ∉ l.uri ∧ quote ∉ l.rel := by decide
    exact fun e member l link => ⟨(all e member l link).1, (all e member l link).2⟩
  induction rounds generalizing out sent with
  | zero => rfl
  | succ rounds ih =>
    have linked : Chain selfPage takenOf ['a'] selfPage.rows ['a'] :=
      .visit (by decide) rfl (by rw [show takenOf _ = ['a'] by decide +kernel]; exact .stop)
    rw [Nat.add_comm]
    exact (treeLoop_chain renders linked).trans ih

/-- A comma splits an address, an address may hold the text of a relation, an empty target is passed over, and a cycle is
followed for ever. -/
theorem tree_misreads :
    linkRel (renderHeader [⟨['a', ',', 'b'], relNext⟩]) relNext = [] ∧ nextOf [⟨['a', ',', 'b'], relNext⟩] = ['a', ',', 'b'] ∧
    linkRel (renderHeader [⟨wanted relNext, []⟩]) relNext = wanted relNext ∧ nextOf [⟨wanted relNext, []⟩] = [] ∧
    linkRel (renderHeader [⟨[], relNext⟩, ⟨['b'], relNext⟩]) relNext = ['b'] ∧ nextOf [⟨[], relNext⟩, ⟨['b'], relNext⟩] = [] ∧
    ∀ rounds, tree (serve selfPage) rounds ['a'] = none :=
  ⟨by decide +kernel, by decide, by decide +kernel, by decide, by decide +kernel, by decide, fun rounds => selfPage_loops rounds⟩

end Hfdl.Hfapi
