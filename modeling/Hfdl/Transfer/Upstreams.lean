import Hfdl.Transition
import Hfdl.Transfer.Interval
import Hfdl.Tune.Controller

/-! The ranged source over several upstreams of one file: which upstream a request goes to, which response is handed out,
and what a response leaves behind. Header values are lists of characters, compared up to a folding of characters; the
random draws of the policies are arguments. -/
namespace Hfdl
open Transition

abbrev Text := List Char

abbrev Endpoint := String

structure Upstream where
  endpoint : Endpoint
  cooldownUntil : Int
  blacklistUntil : Int
deriving DecidableEq

inductive UpstreamPolicy where
  | random
  | roundRobin
  | bestSpeed
deriving DecidableEq

def upstreamCooldownTTL : Int := 30 * second

/-- The state of the source, with the measured rates as rationals. -/
structure HttpSource where
  size : Int
  blobID : Text
  upstreams : List Upstream
  policy : UpstreamPolicy
  blacklistTTL : Int
  rr : Nat
  ema : Endpoint → ℚ
  pins : Endpoint → Option Text
  excluded : Endpoint → Bool
  rangeless : Endpoint → Bool
  cooldown : Endpoint → Option Int

structure Response where
  statusCode : Nat
  contentLength : Int
  contentRange : Text
  contentEncoding : Text
  xLinkedEtag : Text
  etag : Text
  retryAfter : Int

/-- Why a response is no proof of the requested bytes. -/
inductive Mismatch where
  | contentRangeUnparseable (value : Text)
  | contentRange (start stop total off last size : Int)
  | contentEncoding (value : Text)
  | contentLength (announced length : Int)
  | droppedValidator (pin : Text)
  | pinned (etag pin : Text)
  | noValidator
  | blob (etag blob : Text)
deriving DecidableEq

inductive SourceError where
  | allRangeless
  | noHealthy (cause : String)
  | validation (upstream : Endpoint) (why : Mismatch)
  | rangeless (upstream : Endpoint)
  | rangeNotSatisfiable (upstream : Endpoint)
  | status (upstream : Endpoint) (code : Nat) (retryAfter : Int)
  | terminal (upstream : Endpoint) (code : Nat)
deriving DecidableEq

namespace Text

def after : Text → Text → Option Text
  | [], v => some v
  | c :: cs, d :: ds => if c = d then after cs ds else none
  | _ :: _, [] => none

def trim (c : Char) (v : Text) : Text := ((v.dropWhile (· = c)).reverse.dropWhile (· = c)).reverse

def digits (v : Text) : Option Nat :=
  if v = [] then none
  else v.foldl (fun n c => n.bind fun n => if c.isDigit then some (10 * n + (c.toNat - 48)) else none) (some 0)

def parseInt (v : Text) : Option Int :=
  let bounded (n : Int) : Option Int := if -2 ^ 63 ≤ n ∧ n ≤ maxInt64 then some n else none
  match v with
  | '-' :: rest => (digits rest).bind fun n => bounded (-n)
  | '+' :: rest => (digits rest).bind fun n => bounded n
  | _ => (digits v).bind fun n => bounded n

end Text

open Text

/-- Parses `bytes START-END/TOTAL`. -/
def parseContentRange (v : Text) : Option (Int × Int × Int) :=
  match after ['b', 'y', 't', 'e', 's', ' '] v with
  | none => none
  | some spec =>
    match spec.idxOf? '-', spec.reverse.idxOf? '/' with
    | some dash, some back =>
      let slash := spec.length - 1 - back
      if dash = 0 ∨ slash ≤ dash + 1 ∨ slash = spec.length - 1 then none
      else
        match parseInt (spec.take dash), parseInt ((spec.take slash).drop (dash + 1)), parseInt (spec.drop (slash + 1)) with
        | some start, some stop, some total => some (start, stop, total)
        | _, _, _ => none
    | _, _ => none

/-- The identity that a response shows, without weakness mark and quotes. -/
def etagOf (r : Response) : Text :=
  let v := if r.xLinkedEtag = [] then r.etag else r.xLinkedEtag
  trim '"' ((after ['W', '/'] v).getD v)

def equalFold (fold : Char → Char) (a b : Text) : Prop := a.map fold = b.map fold
deriving Decidable

theorem equalFold.trans (left : equalFold fold a b) (right : equalFold fold b c) : equalFold fold a c := Eq.trans left right

namespace HttpSource

/-- Usable at this time; the whole-file fallback ignores the marks of missing range support. -/
def Healthy (s : HttpSource) (now : Int) (ignoreRangeless : Bool) (u : Upstream) : Prop :=
  s.excluded u.endpoint = false ∧ (ignoreRangeless = true ∨ s.rangeless u.endpoint = false) ∧
    (∀ cooled ∈ s.cooldown u.endpoint, cooled ≤ now) ∧ u.cooldownUntil ≤ now ∧ u.blacklistUntil ≤ now
deriving Decidable

def healthy (s : HttpSource) (now : Int) (ignoreRangeless : Bool) : List Upstream :=
  s.upstreams.filter fun u => s.Healthy now ignoreRangeless u

def allRangeless (s : HttpSource) : Prop := s.upstreams ≠ [] ∧ ∀ u ∈ s.upstreams, s.rangeless u.endpoint = true
deriving Decidable

/-- The draws of the generator: whether to explore, and an index before it is reduced. -/
structure Draw where
  explore : Bool
  index : Nat

def bestOf (ema : Endpoint → ℚ) (first : Upstream) (rest : List Upstream) : Upstream :=
  rest.foldl (fun best u => if ema best.endpoint < ema u.endpoint then u else best) first

/-- The choice of the policy among the healthy upstreams, and the source after it. -/
def pickLocked (s : HttpSource) (draw : Draw) (first : Upstream) (rest : List Upstream) : Upstream × HttpSource :=
  let nth (i : Nat) : Upstream := (first :: rest).getD (i % (rest.length + 1)) first
  match s.policy with
  | .random => (nth draw.index, s)
  | .roundRobin => (nth s.rr, { s with rr := (s.rr + 1) % 2 ^ 64 })
  | .bestSpeed => (if draw.explore then nth draw.index else bestOf s.ema first rest, s)

def pick (s : HttpSource) (now : Int) (draw : Draw) : Except SourceError (Upstream × HttpSource) :=
  match s.healthy now false with
  | first :: rest => .ok (s.pickLocked draw first rest)
  | [] =>
    if s.allRangeless then .error .allRangeless
    else if s.upstreams = [] then .error (.noHealthy "no upstreams configured")
    else .error (.noHealthy "all upstreams cooled down or blacklisted")

def pickWhole (s : HttpSource) (now : Int) (draw : Draw) : Option (Upstream × HttpSource) :=
  match s.healthy now true with
  | first :: rest => some (s.pickLocked draw first rest)
  | [] => (s.upstreams.find? fun u => s.excluded u.endpoint = false).map fun u => (u, s)

/-- A ranged read up to its request. -/
def openRange (s : HttpSource) (now : Int) (draw : Draw) : Except SourceError (Upstream × HttpSource) :=
  if s.allRangeless then .error .allRangeless else s.pick now draw

def exclude (s : HttpSource) (upstream : Endpoint) : HttpSource :=
  { s with excluded := Function.update s.excluded upstream true }

def markRangeless (s : HttpSource) (upstream : Endpoint) : HttpSource :=
  { s with rangeless := Function.update s.rangeless upstream true }

def setCooldown (s : HttpSource) (upstream : Endpoint) (until_ : Int) : HttpSource :=
  { s with cooldown := Function.update s.cooldown upstream (some until_) }

/-- A park after a stall or an error never shortens a longer one. -/
def blacklist (s : HttpSource) (upstream : Endpoint) (now : Int) : HttpSource :=
  if ∀ cur ∈ s.cooldown upstream, cur < now + s.blacklistTTL then s.setCooldown upstream (now + s.blacklistTTL) else s

def reportRate (s : HttpSource) (upstream : Endpoint) (bps : ℚ) : HttpSource :=
  { s with ema := Function.update s.ema upstream (1 / 5 * bps + (1 - 1 / 5) * s.ema upstream) }

def penalize (s : HttpSource) (upstream : Endpoint) : HttpSource :=
  { s with ema := Function.update s.ema upstream (s.ema upstream * (1 / 2)) }

section
variable (fold : Char → Char)

/-- The identity pin of an upstream: the first proof is recorded, later ones are compared with it. -/
def checkIdentity (s : HttpSource) (upstream : Endpoint) (etag : Text) (requireValidator : Bool) : Option Mismatch × HttpSource :=
  match s.pins upstream with
  | some pin =>
    if etag = [] then
      if requireValidator then (some (.droppedValidator pin), s.exclude upstream) else (none, s)
    else if equalFold fold etag pin then (none, s)
    else (some (.pinned etag pin), s.exclude upstream)
  | none =>
    if etag = [] then (if requireValidator then some .noValidator else none, s)
    else if s.blobID ≠ [] ∧ ¬ equalFold fold etag s.blobID then (some (.blob etag s.blobID), s.exclude upstream)
    else (none, { s with pins := Function.update s.pins upstream (some etag) })

def validate206 (s : HttpSource) (r : Response) (upstream : Endpoint) (off length : Int) : Option Mismatch × HttpSource :=
  match parseContentRange r.contentRange with
  | none => (some (.contentRangeUnparseable r.contentRange), s)
  | some (start, stop, total) =>
    if start ≠ off ∨ stop ≠ off + length - 1 ∨ total ≠ s.size then
      (some (.contentRange start stop total off (off + length - 1) s.size), s)
    else if r.contentEncoding ≠ [] ∧ ¬ equalFold fold r.contentEncoding ['i', 'd', 'e', 'n', 't', 'i', 't', 'y'] then
      (some (.contentEncoding r.contentEncoding), s)
    else if 0 ≤ r.contentLength ∧ r.contentLength ≠ length then (some (.contentLength r.contentLength length), s)
    else s.checkIdentity fold upstream (etagOf r) true

/-- The rest of a ranged read: no error hands out the body. -/
def respond (s : HttpSource) (r : Response) (upstream : Endpoint) (off length now : Int) : Option SourceError × HttpSource :=
  match r.statusCode with
  | 206 => ((s.validate206 fold r upstream off length).1.map (.validation upstream), (s.validate206 fold r upstream off length).2)
  | 200 =>
    let s := s.markRangeless upstream
    (some (if s.allRangeless then .allRangeless else .rangeless upstream), s)
  | 416 => (some (.rangeNotSatisfiable upstream), s)
  | 429 | 503 => (some (.status upstream r.statusCode r.retryAfter), s.setCooldown upstream (now + upstreamCooldownTTL))
  | 401 | 403 | 404 => (some (.terminal upstream r.statusCode), s)
  | code => (some (if 500 ≤ code then .status upstream code 0 else .terminal upstream code), s)

/-- The rest of a read of the whole file. -/
def respondWhole (s : HttpSource) (r : Response) (upstream : Endpoint) : Option SourceError × HttpSource :=
  let identity := s.checkIdentity fold upstream (etagOf r) false
  let checked := (identity.1.map (SourceError.validation upstream), identity.2)
  match r.statusCode with
  | 200 =>
    if 0 ≤ r.contentLength ∧ r.contentLength ≠ s.size then
      (some (.validation upstream (.contentLength r.contentLength s.size)), s)
    else checked
  | 206 =>
    match parseContentRange r.contentRange with
    | some (start, stop, total) =>
      if start ≠ 0 ∨ stop ≠ s.size - 1 ∨ total ≠ s.size then
        (some (.validation upstream (.contentRange start stop total 0 (s.size - 1) s.size)), s)
      else checked
    | none => (some (.validation upstream (.contentRangeUnparseable r.contentRange)), s)
  | code => (some (if code = 429 ∨ 500 ≤ code then .status upstream code 0 else .terminal upstream code), s)

end
end HttpSource

/-- A request in flight; without a range it asks for the whole file. -/
structure Request where
  upstream : Endpoint
  range : Option (Int × Int)

/-- A ranged body that was handed out, with the identity it came with. -/
structure Body where
  upstream : Endpoint
  etag : Text

/-- The source and its callers, with the upstreams selected so far, the identities accepted and the ranged bodies handed
out, newest first. -/
structure Sourcing where
  src : HttpSource
  pending : Nat → Option Request
  selected : List Endpoint
  accepted : List (Endpoint × Text)
  bodies : List Body

namespace Sourcing
open HttpSource

inductive Event where
  | openRange (caller : Nat) (off length now : Int) (draw : Draw)
  | openWhole (caller : Nat) (now : Int) (draw : Draw)
  | respond (caller : Nat) (r : Response) (now : Int)
  | lose (caller : Nat)
  | blacklist (upstream : Endpoint) (now : Int)
  | reportRate (upstream : Endpoint) (bps : ℚ)
  | penalize (upstream : Endpoint)

def start (size blacklistTTL : Int) (blobID : Text) (upstreams : List Upstream) (policy : UpstreamPolicy) (ema : Endpoint → ℚ) :
    Sourcing where
  src := ⟨size, blobID, upstreams, policy, blacklistTTL, 0, ema, fun _ => none, fun _ => false, fun _ => false, fun _ => none⟩
  pending _ := none
  selected := []
  accepted := []
  bodies := []

def request (d : Sourcing) (caller : Nat) (u : Upstream) (src : HttpSource) (range : Option (Int × Int)) : Sourcing :=
  { d with
    src
    pending := Function.update d.pending caller (some ⟨u.endpoint, range⟩)
    selected := u.endpoint :: d.selected }

def conclude (d : Sourcing) (caller : Nat) (q : Request) (etag : Text) (answer : Option SourceError × HttpSource) : Sourcing :=
  { d with
    src := answer.2
    pending := Function.update d.pending caller none
    accepted := if answer.1 = none ∧ etag ≠ [] then (q.upstream, etag) :: d.accepted else d.accepted
    bodies := if answer.1 = none ∧ q.range ≠ none then ⟨q.upstream, etag⟩ :: d.bodies else d.bodies }

def next (fold : Char → Char) (d : Sourcing) : Event → Option Sourcing
  | .openRange caller off length now draw =>
    match d.pending caller, d.src.openRange now draw with
    | none, .ok (u, src) => some (d.request caller u src (some (off, length)))
    | none, .error _ => some d
    | some _, _ => none
  | .openWhole caller now draw =>
    match d.pending caller, d.src.pickWhole now draw with
    | none, some (u, src) => some (d.request caller u src none)
    | none, none => some d
    | some _, _ => none
  | .respond caller r now =>
    match d.pending caller with
    | some ⟨up, some (off, length)⟩ =>
      some (d.conclude caller ⟨up, some (off, length)⟩ (etagOf r) (d.src.respond fold r up off length now))
    | some ⟨up, none⟩ => some (d.conclude caller ⟨up, none⟩ (etagOf r) (d.src.respondWhole fold r up))
    | none => none
  | .lose caller => some { d with pending := Function.update d.pending caller none }
  | .blacklist upstream now => some { d with src := d.src.blacklist upstream now }
  | .reportRate upstream bps => some { d with src := d.src.reportRate upstream bps }
  | .penalize upstream => some { d with src := d.src.penalize upstream }

def firstAccepted (d : Sourcing) (upstream : Endpoint) : Option Text :=
  ((d.accepted.filter fun a => a.1 = upstream).getLast?).map (·.2)

end Sourcing

namespace HttpSource
variable {fold : Char → Char} {s : HttpSource}

/-- What a response can do to the identities of the source. -/
inductive Checked (fold : Char → Char) (s : HttpSource) (up : Endpoint) (etag : Text) : Bool → HttpSource → Prop where
  | failed (pins : s'.pins = s.pins) (blob : s'.blobID = s.blobID)
      (excluded : ∀ ep, s.excluded ep = true → s'.excluded ep = true) :
      Checked fold s up etag false s'
  | absent (empty : etag = []) : Checked fold s up etag true s
  | confirmed (known : s.pins up = some pin) (present : etag ≠ []) (same : equalFold fold etag pin) :
      Checked fold s up etag true s
  | pinned (unknown : s.pins up = none) (present : etag ≠ []) (proven : s.blobID ≠ [] → equalFold fold etag s.blobID) :
      Checked fold s up etag true { s with pins := Function.update s.pins up (some etag) }

theorem excluded_exclude (known : s.excluded ep = true) : (s.exclude up).excluded ep = true := by
  by_cases same : ep = up
  · subst same
    exact Function.update_self ..
  · exact (Function.update_of_ne same ..).trans known

theorem checkIdentity_checked {require : Bool} : Checked fold s up etag (s.checkIdentity fold up etag require).1.isNone
    (s.checkIdentity fold up etag require).2 := by
  rw [checkIdentity]
  split
  · rename_i pin known
    split
    · split
      · exact .failed rfl rfl fun _ => excluded_exclude
      · exact .absent ‹_›
    · split
      · exact .confirmed known ‹_› ‹_›
      · exact .failed rfl rfl fun _ => excluded_exclude
  · rename_i unknown
    split
    · split
      · exact .failed rfl rfl fun _ => id
      · exact .absent ‹_›
    · split
      · exact .failed rfl rfl fun _ => excluded_exclude
      · rename_i present consistent
        apply Checked.pinned unknown present
        intro named
        by_contra differs
        exact consistent ⟨named, differs⟩

theorem etag_of_checkIdentity (accepted : (s.checkIdentity fold up etag true).1 = none) : etag ≠ [] := by
  rintro rfl
  rw [checkIdentity] at accepted
  split at accepted <;> cases accepted

theorem respond_checked : Checked fold s up (etagOf r) (s.respond fold r up off length now).1.isNone
    (s.respond fold r up off length now).2 := by
  rw [respond]
  split
  · simp only [Option.isNone_map, validate206]
    split
    · exact .failed rfl rfl fun _ => id
    split
    · exact .failed rfl rfl fun _ => id
    split
    · exact .failed rfl rfl fun _ => id
    split
    · exact .failed rfl rfl fun _ => id
    · exact checkIdentity_checked
  all_goals exact .failed rfl rfl fun _ => id

theorem etag_of_respond (handed : (s.respond fold r up off length now).1 = none) : etagOf r ≠ [] := by
  rw [respond] at handed
  split at handed
  · simp only [Option.map_eq_none_iff, validate206] at handed
    split at handed
    · cases handed
    split at handed
    · cases handed
    split at handed
    · cases handed
    split at handed
    · cases handed
    · exact etag_of_checkIdentity handed
  all_goals cases handed

theorem respondWhole_checked : Checked fold s up (etagOf r) (s.respondWhole fold r up).1.isNone (s.respondWhole fold r up).2 := by
  rw [respondWhole]
  split
  · split
    · exact .failed rfl rfl fun _ => id
    · rw [Option.isNone_map]
      exact checkIdentity_checked
  · split
    · split
      · exact .failed rfl rfl fun _ => id
      · rw [Option.isNone_map]
        exact checkIdentity_checked
    · exact .failed rfl rfl fun _ => id
  · exact .failed rfl rfl fun _ => id

/-- The identities are the same, and the excluded upstreams stay excluded. -/
structure Keeps (s s' : HttpSource) : Prop where
  pins : s'.pins = s.pins
  blob : s'.blobID = s.blobID
  excluded : s'.excluded = s.excluded

theorem bestOf_mem (ema : Endpoint → ℚ) (first : Upstream) (rest : List Upstream) : bestOf ema first rest ∈ first :: rest := by
  induction rest generalizing first with
  | nil => exact .head _
  | cons u rest ih =>
    rw [bestOf, List.foldl_cons]
    split
    · exact .tail _ (ih u)
    · rcases List.mem_cons.mp (ih first) with same | member
      · exact List.mem_cons.mpr (.inl same)
      · exact .tail _ (.tail _ member)

theorem pickLocked_mem (s : HttpSource) (draw : Draw) (first : Upstream) (rest : List Upstream) :
    (s.pickLocked draw first rest).1 ∈ first :: rest ∧ s.Keeps (s.pickLocked draw first rest).2 := by
  have nth : ∀ i, (first :: rest).getD (i % (rest.length + 1)) first ∈ first :: rest := by
    intro i
    have inside : i % (rest.length + 1) < (first :: rest).length := Nat.mod_lt _ (Nat.succ_pos _)
    rw [List.getD_eq_getElem?_getD, List.getElem?_eq_getElem inside]
    exact List.getElem_mem inside
  rw [pickLocked]
  split
  · exact ⟨nth _, rfl, rfl, rfl⟩
  · exact ⟨nth _, rfl, rfl, rfl⟩
  · constructor
    · simp only
      split
      · exact nth _
      · exact bestOf_mem ..
    · exact ⟨rfl, rfl, rfl⟩

theorem pick_ok (picked : s.pick now draw = .ok (u, s')) : s.excluded u.endpoint = false ∧ s.Keeps s' := by
  rw [pick] at picked
  split at picked
  · rename_i first rest usable
    obtain ⟨member, keeps⟩ := pickLocked_mem s draw first rest
    rw [← usable, Except.ok.inj picked] at member
    rw [Except.ok.inj picked] at keeps
    exact ⟨(of_decide_eq_true (List.mem_filter.mp member).2).1, keeps⟩
  · split at picked
    · cases picked
    split at picked <;> cases picked

theorem openRange_ok (opened : s.openRange now draw = .ok (u, s')) : s.excluded u.endpoint = false ∧ s.Keeps s' := by
  rw [openRange] at opened
  split at opened
  · cases opened
  · exact pick_ok opened

theorem pickWhole_some (picked : s.pickWhole now draw = some (u, s')) : s.excluded u.endpoint = false ∧ s.Keeps s' := by
  rw [pickWhole] at picked
  split at picked
  · rename_i first rest usable
    obtain ⟨member, keeps⟩ := pickLocked_mem s draw first rest
    rw [← usable, Option.some.inj picked] at member
    rw [Option.some.inj picked] at keeps
    exact ⟨(of_decide_eq_true (List.mem_filter.mp member).2).1, keeps⟩
  · obtain ⟨u', found, same⟩ := Option.map_eq_some_iff.mp picked
    cases same
    have free := List.find?_some found
    exact ⟨of_decide_eq_true free, rfl, rfl, rfl⟩

theorem keeps_blacklist : s.Keeps (s.blacklist up now) := by
  rw [blacklist]
  split <;> exact ⟨rfl, rfl, rfl⟩

end HttpSource

namespace HttpSource

theorem Checked.excluded_mono (checked : Checked fold s up etag ok s') (known : s.excluded ep = true) :
    s'.excluded ep = true := by
  cases checked with
  | failed _ _ excluded => exact excluded ep known
  | absent | confirmed | pinned => exact known

end HttpSource

namespace Sourcing
open HttpSource
variable {fold : Char → Char} {d d' : Sourcing}

/-- The pin of an upstream is the first identity accepted from it, agrees with the blob, and with every body handed out. -/
structure Inv (fold : Char → Char) (d : Sourcing) : Prop where
  first : ∀ up, d.firstAccepted up = d.src.pins up
  proven : ∀ up pin, d.src.pins up = some pin → d.src.blobID ≠ [] → equalFold fold pin d.src.blobID
  bodies : ∀ b ∈ d.bodies, ∃ pin, d.src.pins b.upstream = some pin ∧ equalFold fold b.etag pin

theorem Inv.keep (inv : Inv fold d) (pins : d'.src.pins = d.src.pins) (blob : d'.src.blobID = d.src.blobID)
    (accepted : d'.accepted = d.accepted) (bodies : d'.bodies = d.bodies) : Inv fold d' := by
  constructor
  · intro up
    rw [firstAccepted, accepted, pins]
    exact inv.first up
  · intro up pin known named
    rw [pins] at known
    rw [blob] at named ⊢
    exact inv.proven up pin known named
  · intro b handed
    rw [bodies] at handed
    rw [pins]
    exact inv.bodies b handed

theorem firstAccepted_cons (same : d'.accepted = (up', etag) :: d.accepted) :
    d'.firstAccepted up = if up' = up then some ((d.firstAccepted up).getD etag) else d.firstAccepted up := by
  simp only [firstAccepted, same, List.filter_cons]
  by_cases here : up' = up
  · rw [if_pos (by simpa using here), if_pos here, List.getLast?_cons]
    cases (d.accepted.filter fun a => a.1 = up).getLast? with
    | none => rfl
    | some last => rfl
  · rw [if_neg (by simpa using here), if_neg here]

theorem Inv.accept (inv : Inv fold d) (known : d'.src.pins = Function.update d.src.pins up (some ((d.src.pins up).getD etag)))
    (blob : d'.src.blobID = d.src.blobID) (same : equalFold fold etag ((d.src.pins up).getD etag))
    (proven : d.src.blobID ≠ [] → equalFold fold ((d.src.pins up).getD etag) d.src.blobID)
    (accepted : d'.accepted = (up, etag) :: d.accepted)
    (bodies : ∀ b ∈ d'.bodies, b ∈ d.bodies ∨ b = ⟨up, etag⟩) : Inv fold d' := by
  constructor
  · intro up'
    rw [firstAccepted_cons accepted, inv.first, known]
    by_cases here : up = up'
    · subst here
      rw [if_pos rfl, Function.update_self]
    · rw [if_neg here, Function.update_of_ne (Ne.symm here)]
  · intro up' pin here named
    rw [known] at here
    rw [blob] at named ⊢
    rcases update_eq_some.mp here with ⟨rfl, is⟩ | ⟨-, before⟩
    · cases is
      exact proven named
    · exact inv.proven up' pin before named
  · intro b handed
    rw [known]
    by_cases here : b.upstream = up
    · rw [here, Function.update_self]
      refine ⟨_, rfl, ?_⟩
      rcases bodies b handed with old | rfl
      · obtain ⟨pin, before, like⟩ := inv.bodies b old
        rw [here] at before
        rw [before]
        exact like
      · exact same
    · rw [Function.update_of_ne here]
      rcases bodies b handed with old | rfl
      · exact inv.bodies b old
      · exact absurd rfl here

theorem Inv.conclude (inv : Inv fold d) (checked : Checked fold d.src q.upstream etag answer.1.isNone answer.2)
    (shown : answer.1 = none → q.range ≠ none → etag ≠ []) : Inv fold (d.conclude caller q etag answer) := by
  obtain ⟨error, src⟩ := answer
  cases error with
  | some error =>
    cases checked with
    | failed pins blob =>
      exact inv.keep pins blob (by simp [Sourcing.conclude]) (by simp [Sourcing.conclude])
  | none =>
    have handed : ∀ b ∈ (d.conclude caller q etag (none, src)).bodies, b ∈ d.bodies ∨ b = ⟨q.upstream, etag⟩ := by
      intro b member
      simp only [Sourcing.conclude] at member
      split at member
      · exact (List.mem_cons.mp member).symm
      · exact .inl member
    generalize passed : (none : Option SourceError).isNone = ok at checked
    cases checked with
    | failed => cases passed
    | absent empty =>
      have whole : q.range = none := by
        by_contra ranged
        exact shown rfl ranged empty
      exact inv.keep rfl rfl (if_neg (by simp [empty])) (if_neg (by simp [whole]))
    | @confirmed pin known present same =>
      have read : (d.src.pins q.upstream).getD etag = pin := by rw [known]; rfl
      refine inv.accept ?_ rfl ?_ ?_ (by simp [Sourcing.conclude, present]) handed
      · rw [read, ← known, Function.update_eq_self]
        rfl
      · rw [read]
        exact same
      · intro named
        rw [read]
        exact inv.proven _ _ known named
    | pinned unknown present proven =>
      have read : (d.src.pins q.upstream).getD etag = etag := by rw [unknown]; rfl
      refine inv.accept ?_ rfl ?_ ?_ (by simp [Sourcing.conclude, present]) handed
      · rw [read]
        rfl
      · rw [read]
        rfl
      · rw [read]
        exact proven

theorem inv_next (inv : Inv fold d) (stepped : next fold d e = some d') : Inv fold d' := by
  cases e with
  | openRange caller off length now draw =>
    simp only [next] at stepped
    split at stepped <;> cases stepped
    · obtain ⟨-, keeps⟩ := openRange_ok ‹_›
      exact inv.keep keeps.pins keeps.blob rfl rfl
    · exact inv
  | openWhole caller now draw =>
    simp only [next] at stepped
    split at stepped <;> cases stepped
    · obtain ⟨-, keeps⟩ := pickWhole_some ‹_›
      exact inv.keep keeps.pins keeps.blob rfl rfl
    · exact inv
  | respond caller r now =>
    simp only [next] at stepped
    split at stepped <;> cases stepped
    · exact inv.conclude respond_checked fun handed _ => etag_of_respond handed
    · exact inv.conclude respondWhole_checked fun _ never => absurd rfl never
  | lose | reportRate | penalize =>
    cases stepped
    exact inv.keep rfl rfl rfl rfl
  | blacklist =>
    cases stepped
    exact inv.keep keeps_blacklist.pins keeps_blacklist.blob rfl rfl

/-- What a step can select, and what it leaves of the excluded upstreams. -/
theorem selected_next (stepped : next fold d e = some d') :
    (d'.selected = d.selected ∨ ∃ ep, d'.selected = ep :: d.selected ∧ d.src.excluded ep = false) ∧
      ∀ ep, d.src.excluded ep = true → d'.src.excluded ep = true := by
  cases e with
  | openRange caller off length now draw =>
    simp only [next] at stepped
    split at stepped <;> cases stepped
    · obtain ⟨free, keeps⟩ := openRange_ok ‹_›
      exact ⟨.inr ⟨_, rfl, free⟩, fun ep known => (congrFun keeps.excluded ep).trans known⟩
    · exact ⟨.inl rfl, fun _ => id⟩
  | openWhole caller now draw =>
    simp only [next] at stepped
    split at stepped <;> cases stepped
    · obtain ⟨free, keeps⟩ := pickWhole_some ‹_›
      exact ⟨.inr ⟨_, rfl, free⟩, fun ep known => (congrFun keeps.excluded ep).trans known⟩
    · exact ⟨.inl rfl, fun _ => id⟩
  | respond caller r now =>
    simp only [next] at stepped
    split at stepped <;> cases stepped
    · exact ⟨.inl rfl, fun _ => respond_checked.excluded_mono⟩
    · exact ⟨.inl rfl, fun _ => respondWhole_checked.excluded_mono⟩
  | lose | reportRate | penalize =>
    cases stepped
    exact ⟨.inl rfl, fun _ => id⟩
  | blacklist =>
    cases stepped
    exact ⟨.inl rfl, fun ep known => (congrFun keeps_blacklist.excluded ep).trans known⟩

theorem unselected_run (excluded : d.src.excluded ep = true) (ran : run (next fold) d events = some d') :
    ∃ new, d'.selected = new ++ d.selected ∧ ep ∉ new := by
  induction events generalizing d with
  | nil =>
    cases ran
    exact ⟨[], rfl, List.not_mem_nil⟩
  | cons e events ih =>
    obtain ⟨middle, stepped, rest⟩ := run_cons_some.mp ran
    obtain ⟨selects, keeps⟩ := selected_next stepped
    obtain ⟨new, later, absent⟩ := ih (keeps ep excluded) rest
    rcases selects with same | ⟨ep', same, free⟩
    · exact ⟨new, same ▸ later, absent⟩
    · apply Exists.intro (new ++ [ep'])
      constructor
      · rw [later, same, List.append_assoc, List.singleton_append]
      · intro member
        rcases List.mem_append.mp member with member | last
        · exact absent member
        · obtain rfl := List.mem_singleton.mp last
          cases excluded.symm.trans free

/-- In every run each ranged body came with an identity that equals the blob and the first identity accepted from its
upstream, up to folding, and an upstream once excluded is never selected again. -/
theorem identity_never_mixed (ran : run (next fold) (start size₀ ttl₀ blob₀ upstreams₀ policy₀ ema₀) events = some d) :
    (∀ b ∈ d.bodies, (d.src.blobID ≠ [] → equalFold fold b.etag d.src.blobID) ∧
        ∃ first, d.firstAccepted b.upstream = some first ∧ equalFold fold b.etag first) ∧
      ∀ ep later d', d.src.excluded ep = true → run (next fold) d later = some d' →
        ∃ new, d'.selected = new ++ d.selected ∧ ep ∉ new := by
  have initial : Inv fold (start size₀ ttl₀ blob₀ upstreams₀ policy₀ ema₀) := ⟨fun _ => rfl, nofun, nofun⟩
  have inv := Transition.invariant inv_next initial ran
  constructor
  · intro b handed
    obtain ⟨pin, known, same⟩ := inv.bodies b handed
    constructor
    · intro named
      exact same.trans (inv.proven _ _ known named)
    · exact ⟨pin, (inv.first _).trans known, same⟩
  · intro ep later d' excluded ran'
    exact unselected_run excluded ran'

def whole (etag : Text) : Response := ⟨206, 10, ['b', 'y', 't', 'e', 's', ' ', '0', '-', '9', '/', '1', '0'], [], [], etag, 0⟩

def mirrored : Sourcing := start 10 0 ['a', 'b'] [⟨"hub", 0, 0⟩, ⟨"mirror", 0, 0⟩] .random fun _ => 0

/-- The same identity twice, in different case. -/
def recased : List Event :=
  [.openRange 0 0 10 0 ⟨false, 0⟩, .respond 0 (whole ['A', 'B']) 0, .openRange 0 0 10 0 ⟨false, 0⟩,
    .respond 0 (whole ['a', 'b']) 0]

theorem identity_recased :
    ∃ d, run (next Char.toLower) mirrored recased = some d ∧ ∃ b ∈ d.bodies, d.firstAccepted b.upstream ≠ some b.etag :=
  ⟨_, rfl, _, .head _, by decide⟩

/-- The mirror serves something else. -/
def mixed : List Event :=
  [.openRange 0 0 10 0 ⟨false, 0⟩, .respond 0 (whole ['a', 'B']) 0, .openRange 1 0 10 0 ⟨false, 1⟩,
    .respond 1 (whole ['c', 'd']) 0]

theorem identity_never_mixed_mirror :
    ∃ d, run (next Char.toLower) mirrored mixed = some d ∧ d.bodies.map (·.etag) = [['a', 'B']] ∧
      (∀ b ∈ d.bodies, equalFold Char.toLower b.etag ['a', 'b']) ∧
      ∀ later d', run (next Char.toLower) d later = some d' → ∃ new, d'.selected = new ++ d.selected ∧ "mirror" ∉ new := by
  have ran : ∃ d, run (next Char.toLower) mirrored mixed = some d ∧ d.bodies.map (·.etag) = [['a', 'B']] ∧
      d.src.blobID = ['a', 'b'] ∧ d.src.excluded "mirror" = true := ⟨_, rfl, rfl, rfl, by decide⟩
  obtain ⟨d, ran, shown, blob, excluded⟩ := ran
  obtain ⟨bodies, selections⟩ := identity_never_mixed ran
  refine ⟨d, ran, shown, ?_, ?_⟩
  · intro b handed
    have same := (bodies b handed).1
    rw [blob] at same
    exact same (by decide)
  · intro later d' ran'
    exact selections "mirror" later d' excluded ran'

end Sourcing

namespace HttpSource

section
variable {s : HttpSource} (hopeless : ∀ u ∈ s.upstreams, s.excluded u.endpoint = true ∨ s.rangeless u.endpoint = true)
include hopeless

theorem healthy_of_hopeless (now : Int) : s.healthy now false = [] := by
  refine List.filter_eq_nil_iff.mpr fun u member healthy => ?_
  obtain ⟨included, ranged, -⟩ := of_decide_eq_true healthy
  rcases hopeless u member with excluded | rangeless
  · rw [excluded] at included
    cases included
  · rcases ranged with never | ranged
    · cases never
    · rw [rangeless] at ranged
      cases ranged

theorem openRange_of_hopeless (now : Int) (draw : Draw) (some_ : s.upstreams ≠ []) :
    s.openRange now draw =
      .error (if s.allRangeless then .allRangeless else .noHealthy "all upstreams cooled down or blacklisted") := by
  rw [openRange, pick, healthy_of_hopeless hopeless now]
  by_cases all : s.allRangeless
  · rw [if_pos all, if_pos all]
  · simp only [if_neg all, if_neg some_]

/-- When no upstream can serve ranges any more, the next read says so exactly if the excluded upstreams are marked
rangeless too; otherwise it waits for upstreams that never come back. -/
theorem hopeless_ranges_reported (now : Int) (draw : Draw)
    (left : ∃ u ∈ s.upstreams, s.rangeless u.endpoint = true ∧ s.excluded u.endpoint = false) :
    (s.openRange now draw = .error .allRangeless ↔ ∀ u ∈ s.upstreams,
        s.excluded u.endpoint = true → s.rangeless u.endpoint = true) ∧
      (s.openRange now draw = .error .allRangeless ∨
        s.openRange now draw = .error (.noHealthy "all upstreams cooled down or blacklisted")) := by
  obtain ⟨u₀, member₀, -⟩ := left
  have some_ : s.upstreams ≠ [] := List.ne_nil_of_mem member₀
  have marked : s.allRangeless ↔ ∀ u ∈ s.upstreams, s.excluded u.endpoint = true → s.rangeless u.endpoint = true := by
    refine ⟨fun all u member _ => all.2 u member, fun marked => ⟨some_, fun u member => ?_⟩⟩
    exact (hopeless u member).elim (marked u member) id
  rw [← marked, openRange_of_hopeless hopeless now draw some_]
  by_cases all : s.allRangeless <;> simp [all]

end

end HttpSource

namespace Sourcing
open HttpSource

def unranged : Response := ⟨200, 10, [], [], [], [], 0⟩

/-- The hub serves something else, and the mirror does not know ranges. -/
def stranded : List Event :=
  [.openRange 0 0 10 0 ⟨false, 0⟩, .respond 0 (whole ['c', 'd']) 0, .openRange 0 0 10 0 ⟨false, 0⟩, .respond 0 unranged 0]

theorem stranded_without_fallback :
    ∃ d, run (next Char.toLower) mirrored stranded = some d ∧
      (∀ u ∈ d.src.upstreams, d.src.excluded u.endpoint = true ∨ d.src.rangeless u.endpoint = true) ∧
      (∃ u ∈ d.src.upstreams, d.src.rangeless u.endpoint = true ∧ d.src.excluded u.endpoint = false) ∧
      ∀ now draw, d.src.openRange now draw = .error (.noHealthy "all upstreams cooled down or blacklisted") :=
  ⟨_, rfl, by decide, by decide, fun _ _ => rfl⟩

def unrangedTwice : List Event :=
  [.openRange 0 0 10 0 ⟨false, 0⟩, .respond 0 unranged 0, .openRange 0 0 10 0 ⟨false, 0⟩, .respond 0 unranged 0]

theorem hopeless_ranges_reported_twice :
    ∃ d, run (next Char.toLower) mirrored unrangedTwice = some d ∧ d.src.upstreams.length = 2 ∧
      d.src.openRange 0 ⟨false, 0⟩ = .error .allRangeless := by
  have ran : ∃ d, run (next Char.toLower) mirrored unrangedTwice = some d ∧ d.src.upstreams.length = 2 ∧
      (∀ u ∈ d.src.upstreams, d.src.excluded u.endpoint = true ∨ d.src.rangeless u.endpoint = true) ∧
      (∃ u ∈ d.src.upstreams, d.src.rangeless u.endpoint = true ∧ d.src.excluded u.endpoint = false) ∧
      ∀ u ∈ d.src.upstreams, d.src.excluded u.endpoint = true → d.src.rangeless u.endpoint = true :=
    ⟨_, rfl, rfl, by decide, by decide, by decide⟩
  obtain ⟨d, ran, two, hopeless, left, marked⟩ := ran
  exact ⟨d, ran, two, (hopeless_ranges_reported hopeless 0 ⟨false, 0⟩ left).1.mpr marked⟩

end Sourcing
end Hfdl
