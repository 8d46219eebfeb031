import Hfdl.Filepath

/-! A tree of directories, files and symbolic links: how the kernel walks a path
in it, and how a path's links are evaluated in user space, one `lstat` per
element. Lengths of names and paths are not limited. -/
namespace Hfdl.FileTree
open Filepath

def nul : Char := '\x00'

/-- A link's target is stored as a terminated string. -/
inductive Node where
  | file
  | link (target : PathText) (terminated : nul ∉ target)
  | dir (entries : List (PathText × Node))

structure Tree where
  entries : List (PathText × Node)

def Tree.root (t : Tree) : Node := .dir t.entries

inductive Errno where
  | noent | notdir | loop | inval
  deriving DecidableEq, Repr

def Node.child (name : PathText) : Node → Option Node
  | .dir entries => (entries.find? fun e => e.1 = name).map Prod.snd
  | _ => none

def Tree.entry (t : Tree) (place : List PathText) : Option Node :=
  place.foldl (fun node c => node.bind (Node.child c)) (some t.root)

def lookup (t : Tree) (place : List PathText) (c : PathText) : Except Errno Node :=
  match t.entry place with
  | some (.dir entries) =>
    match (Node.dir entries).child c with
    | none => .error .noent
    | some node => .ok node
  | _ => .error .notdir

/-- Where the walk goes on at a link. -/
def origin (place : List PathText) (target : PathText) : List PathText := if isAbs target then [] else place

section Traverse
variable (look : List PathText → PathText → Except Errno Node) (up : List PathText → List PathText)

/-- The elements of a path up to the next link, which `follow` takes over. A file may
only end the path. -/
def traverseWith (follow : List PathText → List PathText → Except Errno (List PathText)) :
    List PathText → List PathText → Except Errno (List PathText)
  | place, [] => .ok place
  | place, c :: cs =>
    if c = [] ∨ c = dot then traverseWith follow place cs
    else if c = dotdot then traverseWith follow (up place) cs
    else match look place c with
      | .error e => .error e
      | .ok (.link target _) => follow (origin place target) (components target ++ cs)
      | .ok (.dir _) => traverseWith follow (place ++ [c]) cs
      | .ok .file => if cs = [] then .ok (place ++ [c]) else .error .notdir

/-- The elements of a path, over at most so many links. -/
def traverse : Nat → List PathText → List PathText → Except Errno (List PathText)
  | 0 => traverseWith look up fun _ _ => .error .loop
  | links + 1 => traverseWith look up (traverse links)

end Traverse

def walk (t : Tree) : Nat → List PathText → List PathText → Except Errno (List PathText) := traverse (lookup t) List.dropLast

def maxSymlinks : Nat := 40

/-- The last element of a path in the directory the walk came to. -/
def final (t : Tree) (place : List PathText) (c : PathText) : Except Errno Node :=
  match t.entry place with
  | some (.dir entries) =>
    if c = [] ∨ c = dot then .ok (.dir entries)
    else if c = dotdot then
      match t.entry place.dropLast with
      | some node => .ok node
      | none => .error .noent
    else lookup t place c
  | _ => .error .notdir

/-- The links of every element but the last are followed. -/
def lstat (t : Tree) (p : PathText) : Except Errno Node :=
  if nul ∈ p then .error .inval
  else match walk t maxSymlinks [] (components p).dropLast with
    | .error e => .error e
    | .ok place => final t place ((components p).getLastD [])

/-- `stat` of the path says that it is a directory. -/
def StatsDir (t : Tree) (p : PathText) : Prop :=
  nul ∉ p ∧ ∃ place entries, walk t maxSymlinks [] (components p) = .ok place ∧ t.entry place = some (.dir entries)

/-- A step to the parent in the text of a path that is being evaluated: the text is
shortened only when a name other than the first one ends it. -/
def backUp (dest : List PathText) : List PathText :=
  if dest.length ≤ 1 ∨ dest.getLast? = some dotdot then dest ++ [dotdot] else dest.dropLast

/-- The evaluation of a path's links: the text read so far is given to `lstat` at each name. -/
def evalLinks (t : Tree) : Nat → List PathText → List PathText → Except Errno (List PathText) :=
  traverse (fun dest c => lstat t (render true (dest ++ [c]))) backUp

def maxLinksWalked : Nat := 255

/-- The text of an absolute path with its links evaluated. -/
def evalSymlinks (t : Tree) (p : PathText) : Except Errno PathText :=
  (evalLinks t maxLinksWalked [] (components p)).map fun dest => clean (render true dest)

section Lookup
variable {t : Tree} {place : List PathText} {c : PathText}

theorem entry_concat (t : Tree) (place : List PathText) (c : PathText) :
    t.entry (place ++ [c]) = (t.entry place).bind (Node.child c) := by
  simp [Tree.entry, List.foldl_append]

theorem lookup_ok : lookup t place c = .ok node ↔
    ∃ entries, t.entry place = some (.dir entries) ∧ t.entry (place ++ [c]) = some node := by
  rw [entry_concat]
  unfold lookup
  split
  · case h_1 entries here =>
    rw [here]
    simp only [Option.bind_some]
    split
    · case h_1 none => simp [none]
    · case h_2 found => simp [found]
  · case h_2 other =>
    constructor
    · intro never
      cases never
    · rintro ⟨entries, here, _⟩
      exact absurd here (other entries)

end Lookup

/-- What following every link of a path means, with at most so many links on the way. -/
inductive Follows (t : Tree) : Nat → List PathText → List PathText → List PathText → Prop where
  | done : Follows t links place [] place
  | skip : (c = [] ∨ c = dot) → Follows t links place cs real → Follows t links place (c :: cs) real
  | up : Follows t links place.dropLast cs real → Follows t links place (dotdot :: cs) real
  | enter : ¬ (c = [] ∨ c = dot) → c ≠ dotdot → lookup t place c = .ok (.dir entries) →
      Follows t links (place ++ [c]) cs real → Follows t links place (c :: cs) real
  | file : ¬ (c = [] ∨ c = dot) → c ≠ dotdot → lookup t place c = .ok .file → Follows t links place [c] (place ++ [c])
  | link : ¬ (c = [] ∨ c = dot) → c ≠ dotdot → lookup t place c = .ok (.link target terminated) →
      Follows t links (origin place target) (components target ++ cs) real → Follows t (links + 1) place (c :: cs) real

section Traverse
variable {look : List PathText → PathText → Except Errno Node} {up : List PathText → List PathText}
  {place cs : List PathText} {c : PathText} {links : Nat}

theorem traverse_nil : traverse look up links place [] = .ok place := by cases links <;> rfl

/-- What the first element of a path leads to. -/
theorem traverse_cons : traverse look up links place (c :: cs) =
    if c = [] ∨ c = dot then traverse look up links place cs
    else if c = dotdot then traverse look up links (up place) cs
    else match look place c with
      | .error e => .error e
      | .ok (.link target _) =>
        match links with
        | 0 => .error .loop
        | links + 1 => traverse look up links (origin place target) (components target ++ cs)
      | .ok (.dir _) => traverse look up links (place ++ [c]) cs
      | .ok .file => if cs = [] then .ok (place ++ [c]) else .error .notdir := by
  cases links <;> rfl

theorem traverse_skip (skipped : c = [] ∨ c = dot) :
    traverse look up links place (c :: cs) = traverse look up links place cs := by
  rw [traverse_cons, if_pos skipped]

theorem traverse_up : traverse look up links place (dotdot :: cs) = traverse look up links (up place) cs := by
  rw [traverse_cons, if_neg (by decide), if_pos rfl]

variable (named : ¬ (c = [] ∨ c = dot)) (forward : c ≠ dotdot)
include named forward

theorem traverse_enter (found : look place c = .ok (.dir entries)) :
    traverse look up links place (c :: cs) = traverse look up links (place ++ [c]) cs := by
  rw [traverse_cons, if_neg named, if_neg forward, found]

theorem traverse_file (found : look place c = .ok .file) :
    traverse look up links place (c :: cs) = if cs = [] then .ok (place ++ [c]) else .error .notdir := by
  rw [traverse_cons, if_neg named, if_neg forward, found]

theorem traverse_link (found : look place c = .ok (.link target terminated)) :
    traverse look up (links + 1) place (c :: cs) = traverse look up links (origin place target) (components target ++ cs) := by
  rw [traverse_cons, if_neg named, if_neg forward, found]

theorem traverse_link_zero (found : look place c = .ok (.link target terminated)) :
    traverse look up 0 place (c :: cs) = .error .loop := by
  rw [traverse_cons, if_neg named, if_neg forward, found]

theorem traverse_missing (missing : look place c = .error e) : traverse look up links place (c :: cs) = .error e := by
  rw [traverse_cons, if_neg named, if_neg forward, missing]

end Traverse

section Walk
variable {t : Tree} {place cs : List PathText} {c : PathText} {links : Nat}

/-- The kernel's walk succeeds where the links lead, unless they are too many. -/
theorem walk_of_follows (follows : Follows t m place cs real) (links : Nat) :
    walk t links place cs = .ok real ∨ links < m ∧ walk t links place cs = .error .loop := by
  unfold walk
  induction follows generalizing links with
  | done => exact Or.inl traverse_nil
  | skip skipped _ ih =>
    rw [traverse_skip skipped]
    exact ih links
  | up _ ih =>
    rw [traverse_up]
    exact ih links
  | enter named forward found _ ih =>
    rw [traverse_enter named forward found]
    exact ih links
  | file named forward found => exact Or.inl (by rw [traverse_file named forward found, if_pos rfl])
  | link named forward found _ ih =>
    cases links with
    | zero => exact Or.inr ⟨Nat.succ_pos _, traverse_link_zero named forward found⟩
    | succ links =>
      rw [traverse_link named forward found]
      rcases ih links with ok | ⟨few, looped⟩
      · exact Or.inl ok
      · exact Or.inr ⟨Nat.succ_lt_succ few, looped⟩

theorem follows_of_walk (ok : walk t links place cs = .ok real) : Follows t links place cs real := by
  unfold walk at ok
  -- on the links still allowed, and within them on the elements up to the next link
  induction links using Nat.strong_induction_on generalizing place cs with
  | h links fewer =>
    induction cs generalizing place with
    | nil =>
      rw [traverse_nil] at ok
      cases ok
      exact .done
    | cons c cs ih =>
      by_cases skipped : c = [] ∨ c = dot
      · rw [traverse_skip skipped] at ok
        exact .skip skipped (ih ok)
      · by_cases back : c = dotdot
        · rw [back, traverse_up] at ok
          rw [back]
          exact .up (ih ok)
        · cases found : lookup t place c with
          | error e =>
            rw [traverse_missing skipped back found] at ok
            cases ok
          | ok node =>
            cases node with
            | dir entries =>
              rw [traverse_enter skipped back found] at ok
              exact .enter skipped back found (ih ok)
            | file =>
              rw [traverse_file skipped back found] at ok
              split at ok
              · case isTrue last =>
                cases ok
                rw [last]
                exact .file skipped back found
              · cases ok
            | link target terminated =>
              cases links with
              | zero =>
                rw [traverse_link_zero skipped back found] at ok
                cases ok
              | succ links =>
                rw [traverse_link skipped back found] at ok
                exact .link skipped back found (fewer links (Nat.lt_succ_self _) ok)

theorem follows_unique (first : Follows t m place cs real) (second : Follows t n place cs real') : real = real' := by
  have far : walk t (m + n) place cs = .ok real := (walk_of_follows first (m + n)).resolve_right fun few => by omega
  have near : walk t (m + n) place cs = .ok real' := (walk_of_follows second (m + n)).resolve_right fun few => by omega
  rw [far] at near
  cases near
  rfl

theorem Follows.mono (follows : Follows t m place cs real) (most : m ≤ n) : Follows t n place cs real :=
  follows_of_walk ((walk_of_follows follows n).resolve_right fun few => by omega)

theorem Follows.split (follows : Follows t links place cs real) :
    ∀ xs ys, cs = xs ++ ys → ys ≠ [] → ∃ mid, Follows t links place xs mid ∧ Follows t links mid ys real := by
  induction follows with
  | done =>
    intro xs ys whole some
    exact absurd (List.append_eq_nil_iff.mp whole.symm).2 some
  | skip skipped rest ih =>
    intro xs ys whole some
    rcases List.cons_eq_append_iff.mp whole with ⟨rfl, rfl⟩ | ⟨xs, rfl, after⟩
    · exact ⟨_, .done, .skip skipped rest⟩
    · obtain ⟨mid, first, last⟩ := ih xs ys after some
      exact ⟨mid, .skip skipped first, last⟩
  | up rest ih =>
    intro xs ys whole some
    rcases List.cons_eq_append_iff.mp whole with ⟨rfl, rfl⟩ | ⟨xs, rfl, after⟩
    · exact ⟨_, .done, .up rest⟩
    · obtain ⟨mid, first, last⟩ := ih xs ys after some
      exact ⟨mid, .up first, last⟩
  | enter named forward found rest ih =>
    intro xs ys whole some
    rcases List.cons_eq_append_iff.mp whole with ⟨rfl, rfl⟩ | ⟨xs, rfl, after⟩
    · exact ⟨_, .done, .enter named forward found rest⟩
    · obtain ⟨mid, first, last⟩ := ih xs ys after some
      exact ⟨mid, .enter named forward found first, last⟩
  | file named forward found =>
    intro xs ys whole some
    rcases List.cons_eq_append_iff.mp whole with ⟨rfl, rfl⟩ | ⟨xs, rfl, after⟩
    · exact ⟨_, .done, .file named forward found⟩
    · exact absurd (List.append_eq_nil_iff.mp after.symm).2 some
  | @link c place target terminated links cs real named forward found rest ih =>
    intro xs ys whole some
    rcases List.cons_eq_append_iff.mp whole with ⟨rfl, rfl⟩ | ⟨xs, rfl, rfl⟩
    · exact ⟨_, .done, .link named forward found rest⟩
    · obtain ⟨mid, first, last⟩ := ih (components target ++ xs) ys (List.append_assoc ..).symm some
      exact ⟨mid, .link named forward found first, last.mono (Nat.le_succ _)⟩

theorem Follows.append (first : Follows t m place xs mid) (last : Follows t n mid ys real)
    (directory : t.entry mid = some (.dir entries)) : Follows t (m + n) place (xs ++ ys) real := by
  induction first with
  | done => exact last.mono (Nat.le_add_left _ _)
  | skip skipped _ ih => exact .skip skipped (ih last directory)
  | up _ ih => exact .up (ih last directory)
  | enter named forward found _ ih => exact .enter named forward found (ih last directory)
  | file named forward found =>
    obtain ⟨_, _, here⟩ := lookup_ok.mp found
    rw [directory] at here
    cases here
  | @link c place target terminated links cs real named forward found _ ih =>
    rw [Nat.add_right_comm, List.cons_append]
    apply Follows.link named forward found
    rw [← List.append_assoc]
    exact ih last directory

theorem walk_missing (named : Plain d)
    (missing : ((walk t links place cs).bind fun place => lookup t place d) = .error .noent) :
    walk t links place (cs ++ [d]) = .error .noent := by
  unfold walk at missing ⊢
  induction links using Nat.strong_induction_on generalizing place cs with
  | h links fewer =>
    induction cs generalizing place with
    | nil =>
      rw [traverse_nil] at missing
      exact traverse_missing (by simp [named.1, named.2.1]) named.2.2.1 missing
    | cons c cs ih =>
      rw [List.cons_append]
      by_cases skipped : c = [] ∨ c = dot
      · rw [traverse_skip skipped] at missing ⊢
        exact ih missing
      · by_cases back : c = dotdot
        · rw [back, traverse_up] at missing ⊢
          exact ih missing
        · cases found : lookup t place c with
          | error e =>
            rw [traverse_missing skipped back found] at missing ⊢
            cases missing
            rfl
          | ok node =>
            cases node with
            | dir entries =>
              rw [traverse_enter skipped back found] at missing ⊢
              exact ih missing
            | file =>
              rw [traverse_file skipped back found] at missing
              split at missing
              · obtain ⟨_, _, here⟩ := lookup_ok.mp found
                simp [Except.bind, lookup, here] at missing
              · cases missing
            | link target terminated =>
              cases links with
              | zero =>
                rw [traverse_link_zero skipped back found] at missing
                cases missing
              | succ links =>
                rw [traverse_link skipped back found] at missing ⊢
                rw [← List.append_assoc]
                exact fewer links (Nat.lt_succ_self _) missing

end Walk

/-- Every link of the part of a path that exists is followed, and the names after it
are kept. -/
def Resolves (t : Tree) (cs real : List PathText) : Prop :=
  ∃ links pre tail place, cs = pre ++ tail ∧ real = place ++ tail ∧ Follows t links [] pre place ∧
    ∀ c ∈ tail.head?, lookup t place c = .error .noent

theorem Follows.found {t : Tree} (named : ¬ (c = [] ∨ c = dot)) (forward : c ≠ dotdot)
    (follows : Follows t links place (c :: cs) real) :
    lookup t place c ≠ .error e := by
  intro missing
  cases follows with
  | skip skipped => exact named skipped
  | up => exact forward rfl
  | enter _ _ found => rw [found] at missing; cases missing
  | file _ _ found => rw [found] at missing; cases missing
  | link _ _ found => rw [found] at missing; cases missing

theorem resolves_longest {t : Tree} (plain : ∀ c ∈ tail, Plain c) (here : Follows t m [] pre place)
    (missing : ∀ c ∈ tail.head?, lookup t place c = .error .noent) (there : Follows t n [] (pre ++ more) place')
    (within : more <+: tail) : more = [] := by
  cases more with
  | nil => rfl
  | cons c more =>
    obtain ⟨rest, rfl⟩ := within
    have named := plain c List.mem_cons_self
    obtain ⟨mid, first, last⟩ := there.split pre (c :: more) rfl (by simp)
    obtain rfl := follows_unique here first
    exact absurd (missing c rfl) (last.found (by simp [named.1, named.2.1]) named.2.2.1)

theorem resolves_unique {t : Tree} (plain : ∀ c ∈ cs, Plain c) (first : Resolves t cs real) (second : Resolves t cs real') :
    real = real' := by
  obtain ⟨m, pre, tail, place, rfl, rfl, here, missing⟩ := first
  obtain ⟨n, pre', tail', place', same, rfl, there, missing'⟩ := second
  have tails : tail = tail' ∧ pre = pre' := by
    rcases List.append_eq_append_iff.mp same with ⟨more, rfl, rfl⟩ | ⟨more, rfl, rfl⟩
    · have none := resolves_longest (fun c member => plain c (List.mem_append_right _ member)) here missing there
        (List.prefix_append more tail')
      simp [none]
    · have none := resolves_longest
        (fun c member => plain c (by simp only [List.append_assoc, List.mem_append] at member ⊢; tauto)) there missing' here
        (List.prefix_append more tail)
      simp [none]
  obtain ⟨rfl, rfl⟩ := tails
  rw [follows_unique here there]

section Lstat
variable {t : Tree} {cs : List PathText} {c : PathText}

theorem terminated_render : nul ∉ render true cs ↔ ∀ c ∈ cs, nul ∉ c := by
  have other : ¬ nul = '/' := by decide
  by_cases none : cs = []
  · rw [none]
    simp [render, other]
  · rw [render_rooted none]
    simp [lead, other]

theorem final_plain (named : Plain c) : final t place c = lookup t place c := by
  unfold final lookup
  cases t.entry place with
  | none => rfl
  | some node =>
    cases node with
    | file => rfl
    | link target terminated => rfl
    | dir entries =>
      simp only
      rw [if_neg (by simp [named.1, named.2.1]), if_neg named.2.2.1]

theorem lstat_render (clear : ∀ d ∈ cs, '/' ∉ d) (named : Plain c) (terminated : nul ∉ render true (cs ++ [c])) :
    lstat t (render true (cs ++ [c])) = (walk t maxSymlinks [] cs).bind fun place => lookup t place c := by
  have split : components (render true (cs ++ [c])) = [] :: (cs ++ [c]) := by
    apply components_render _ (by simp)
    intro d member
    rcases List.mem_append.mp member with member | member
    · exact clear d member
    · rw [List.mem_singleton.mp member]
      exact named.2.2.2
  have walked : walk t maxSymlinks [] ([] :: cs) = walk t maxSymlinks [] cs := traverse_skip (Or.inl rfl)
  rw [lstat, if_neg terminated, split, ← List.cons_append, List.dropLast_concat, walked, List.getLastD_concat]
  cases walk t maxSymlinks [] cs with
  | error e => rfl
  | ok place => exact final_plain named

end Lstat

/-- The text of an evaluated path against the place it stands for: every element is a
directory that was entered or a step to the parent. -/
inductive Settled (t : Tree) : List PathText → List PathText → Prop where
  | root : Settled t [] []
  | enter : Settled t dest place → Plain c → nul ∉ c → lookup t place c = .ok (.dir entries) →
      Settled t (dest ++ [c]) (place ++ [c])
  | up : Settled t dest place → Settled t (dest ++ [dotdot]) place.dropLast

namespace Settled
variable {t : Tree} {dest place : List PathText} {c : PathText}

theorem plain (settled : Settled t dest place) : ∀ c ∈ place, Plain c := by
  induction settled with
  | root => simp
  | enter _ named _ _ ih =>
    intro d member
    rcases List.mem_append.mp member with member | member
    · exact ih d member
    · rwa [List.mem_singleton.mp member]
  | up _ ih => exact fun d member => ih d ((List.dropLast_sublist _).mem member)

theorem element (settled : Settled t dest place) : ∀ c ∈ dest, Element c ∧ nul ∉ c := by
  induction settled with
  | root => simp
  | enter _ named terminated _ ih =>
    intro d member
    rcases List.mem_append.mp member with member | member
    · exact ih d member
    · rw [List.mem_singleton.mp member]
      exact ⟨⟨named.1, named.2.1, named.2.2.2⟩, terminated⟩
  | up _ ih =>
    intro d member
    rcases List.mem_append.mp member with member | member
    · exact ih d member
    · rw [List.mem_singleton.mp member]
      exact ⟨⟨by decide, by decide, by decide⟩, by decide⟩

theorem collapse_eq (settled : Settled t dest place) : collapse true dest = place := by
  induction settled with
  | root => rfl
  | enter _ named _ _ ih =>
    rw [collapse] at ih ⊢
    rw [List.foldl_append, ih, List.foldl_cons, List.foldl_nil, push_plain named]
  | @up dest place settled ih =>
    rw [collapse] at ih ⊢
    rw [List.foldl_append, ih, List.foldl_cons, List.foldl_nil]
    rcases List.eq_nil_or_concat place with rfl | ⟨init, last, rfl⟩
    · rfl
    · rw [List.concat_eq_append, List.dropLast_concat]
      exact push_back (settled.plain last (by simp)).2.2.1

theorem walk_append (settled : Settled t dest place) (links : Nat) (rest : List PathText) :
    walk t links [] (dest ++ rest) = walk t links place rest := by
  unfold walk
  induction settled generalizing rest with
  | root => rfl
  | enter _ named _ found ih =>
    rw [List.append_assoc, ih, List.singleton_append, traverse_enter (by simp [named.1, named.2.1]) named.2.2.1 found]
  | up _ ih => rw [List.append_assoc, ih, List.singleton_append, traverse_up]

theorem inner (settled : Settled t (dest ++ [c]) place) (named : c ≠ dotdot) :
    ∃ above, place = above ++ [c] ∧ Settled t dest above := by
  generalize whole : dest ++ [c] = text at settled
  cases settled with
  | root => cases dest <;> cases whole
  | enter before _ _ _ =>
    obtain ⟨rfl, same⟩ := List.append_inj' whole rfl
    cases same
    exact ⟨_, rfl, before⟩
  | up _ =>
    obtain ⟨_, same⟩ := List.append_inj' whole rfl
    cases same
    exact absurd rfl named

theorem back (settled : Settled t dest place) : Settled t (backUp dest) place.dropLast := by
  unfold backUp
  split
  · exact .up settled
  · case isFalse long =>
    obtain ⟨long, named⟩ := not_or.mp long
    rcases List.eq_nil_or_concat dest with rfl | ⟨init, last, rfl⟩
    · exact absurd (by decide) long
    · rw [List.concat_eq_append] at settled named ⊢
      obtain ⟨above, rfl, before⟩ := settled.inner (by simpa using named)
      simpa using before

theorem lstat_concat (settled : Settled t dest place) (named : Plain c) (terminated : nul ∉ c) :
    lstat t (render true (dest ++ [c])) = lookup t place c := by
  have walked : walk t maxSymlinks [] dest = .ok place := by
    have whole := settled.walk_append maxSymlinks []
    rw [List.append_nil] at whole
    exact whole.trans traverse_nil
  have whole : nul ∉ render true (dest ++ [c]) := by
    rw [terminated_render]
    intro d member
    rcases List.mem_append.mp member with member | member
    · exact (settled.element d member).2
    · rwa [List.mem_singleton.mp member]
  rw [lstat_render (fun d member => (settled.element d member).1.2.2) named whole, walked]
  rfl

theorem origin (settled : Settled t dest place) (target : PathText) :
    Settled t (FileTree.origin dest target) (FileTree.origin place target) := by
  unfold FileTree.origin
  split
  · exact .root
  · exact settled

/-- Evaluating the links of a path in user space is the kernel's walk. -/
theorem evalLinks_walk (settled : Settled t dest place) (clear : ∀ c ∈ cs, '/' ∉ c ∧ nul ∉ c) (links : Nat) :
    (∃ e, evalLinks t links dest cs = .error e ∧ walk t links place cs = .error e) ∨
    ∃ text real, evalLinks t links dest cs = .ok text ∧ walk t links place cs = .ok real ∧
      collapse true text = real ∧ ∀ c ∈ text, '/' ∉ c := by
  unfold evalLinks walk
  induction links using Nat.strong_induction_on generalizing dest place cs with
  | h links fewer =>
    induction cs generalizing dest place with
    | nil =>
      exact Or.inr ⟨dest, place, traverse_nil, traverse_nil, settled.collapse_eq,
        fun c member => (settled.element c member).1.2.2⟩
    | cons c cs ih =>
      have rest : ∀ d ∈ cs, '/' ∉ d ∧ nul ∉ d := fun d member => clear d (List.mem_cons_of_mem _ member)
      by_cases skipped : c = [] ∨ c = dot
      · rw [traverse_skip skipped, traverse_skip skipped]
        exact ih settled rest
      · by_cases back : c = dotdot
        · rw [back, traverse_up, traverse_up]
          exact ih settled.back rest
        · obtain ⟨free, terminated⟩ := clear c List.mem_cons_self
          have named : Plain c := ⟨(not_or.mp skipped).1, (not_or.mp skipped).2, back, free⟩
          have same := settled.lstat_concat named terminated
          cases found : lookup t place c with
          | error e =>
            exact Or.inl ⟨e, traverse_missing skipped back (same.trans found), traverse_missing skipped back found⟩
          | ok node =>
            cases node with
            | dir entries =>
              rw [traverse_enter skipped back found, traverse_enter skipped back (same.trans found)]
              exact ih (settled.enter named terminated found) rest
            | file =>
              rw [traverse_file skipped back found, traverse_file skipped back (same.trans found)]
              split
              · refine Or.inr ⟨_, _, rfl, rfl, ?_, ?_⟩
                · rw [collapse, List.foldl_append, List.foldl_cons, List.foldl_nil, push_plain named]
                  exact congrArg (· ++ [c]) settled.collapse_eq
                · intro d member
                  rcases List.mem_append.mp member with member | member
                  · exact (settled.element d member).1.2.2
                  · rwa [List.mem_singleton.mp member]
              · exact Or.inl ⟨_, rfl, rfl⟩
            | link target ends =>
              cases links with
              | zero =>
                exact Or.inl ⟨_, traverse_link_zero skipped back (same.trans found), traverse_link_zero skipped back found⟩
              | succ links =>
                rw [traverse_link skipped back found, traverse_link skipped back (same.trans found)]
                apply fewer links (Nat.lt_succ_self _) (settled.origin target)
                intro d member
                rcases List.mem_append.mp member with member | member
                · exact ⟨slash_not_mem member, fun held => ends (mem_of_mem_components member held)⟩
                · exact rest d member

end Settled

section Paths
variable {t : Tree} {cs place real : List PathText} {c : PathText} {links : Nat}

theorem traverse_render (look : List PathText → PathText → Except Errno Node) (up : List PathText → List PathText)
    (clear : ∀ c ∈ cs, '/' ∉ c) :
    traverse look up links place (components (render true cs)) = traverse look up links place cs := by
  by_cases none : cs = []
  · rw [none]
    exact (traverse_skip (Or.inl rfl)).trans (traverse_skip (Or.inl rfl))
  · rw [components_render clear none, traverse_skip (Or.inl rfl)]

theorem lstat_root : lstat t (render true []) = .ok t.root := rfl

theorem clean_render_elements (clear : ∀ c ∈ cs, '/' ∉ c) : clean (render true cs) = render true (collapse true cs) := by
  rw [clean_rooted _ rfl]
  by_cases none : cs = []
  · rw [none]
    rfl
  · rw [components_render clear none, collapse, List.foldl_cons, push_skipped (Or.inl rfl)]
    rfl

section
variable (plain : ∀ c ∈ cs, Plain c) (terminated : ∀ c ∈ cs, nul ∉ c)
include plain terminated

theorem evalLinks_cases (t : Tree) (links : Nat) :
    (∃ e, evalLinks t links [] cs = .error e ∧ walk t links [] cs = .error e) ∨
    ∃ text real, evalLinks t links [] cs = .ok text ∧ walk t links [] cs = .ok real ∧
      collapse true text = real ∧ ∀ c ∈ text, '/' ∉ c :=
  Settled.root.evalLinks_walk (fun c member => ⟨(plain c member).2.2.2, terminated c member⟩) links

theorem plain_of_walk (walked : walk t links [] cs = .ok real) : ∀ c ∈ real, Plain c := by
  rcases evalLinks_cases plain terminated t links with ⟨e, _, stuck⟩ | ⟨dest, place, _, ok, same, free⟩
  · rw [stuck] at walked
    cases walked
  · rw [ok] at walked
    cases walked
    rw [← same]
    exact plain_foldl free (by simp)

/-- The evaluated text of a path names the place where its links lead. -/
theorem evalSymlinks_ok : evalSymlinks t (render true cs) = .ok text ↔
    ∃ real, walk t maxLinksWalked [] cs = .ok real ∧ text = render true real := by
  have both := evalLinks_cases plain terminated t maxLinksWalked
  rw [evalSymlinks, evalLinks, traverse_render _ _ fun c member => (plain c member).2.2.2]
  rw [evalLinks] at both
  rcases both with ⟨e, failed, stuck⟩ | ⟨dest, real, evaluated, walked, same, free⟩
  · rw [failed, stuck]
    simp [Except.map]
  · rw [evaluated, walked, Except.map, clean_render_elements free, same]
    constructor
    · intro ok
      cases ok
      exact ⟨real, rfl, rfl⟩
    · rintro ⟨_, ok, rfl⟩
      cases ok
      rfl

end
end Paths

end Hfdl.FileTree
