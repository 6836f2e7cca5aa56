import Ds4.Dist.RouteSearch

/-!
# Route plans and route blobs

A plan lists the hops of a route, and its blob is what travels with every work frame. A worker reads
the blob again from its bytes: once to check it, once for each entry that it needs and once for the
destination of the final result. The readers return the text of what they refuse.
-/

namespace Ds4.Dist
open C Wire

structure RouteEntry where
  host : Bytes
  port : UInt32
  layerStart : UInt32
  layerEnd : UInt32
  flags : UInt32
  deriving DecidableEq, Repr

structure RouteReturn where
  host : Bytes
  port : UInt32
  kind : UInt32
  deriving DecidableEq, Repr

structure RoutePlan where
  entry : List RouteEntry
  blob : Bytes
  deriving DecidableEq, Repr

namespace RoutePlan

def empty : RoutePlan := ⟨[], []⟩

def count (plan : RoutePlan) : Nat := plan.entry.length

end RoutePlan

/-- The fixed part of an entry. -/
def RouteEntry.fixed (e : RouteEntry) : RouteFixed where
  hostLen := UInt32.ofNat (cstr e.host).length
  port := e.port
  layerStart := e.layerStart
  layerEnd := e.layerEnd
  flags := e.flags

def distRoutePlanAppendBlob (blob : Bytes) (entry : RouteEntry) : Except Bytes Bytes :=
  let host := cstr entry.host
  if host.length = 0 || host.length ≥ niMaxHost then .error (lit "invalid route host")
  else
    let add := sizeof RouteFixed + host.length
    if add > uint32Max || blob.length > uint32Max - add then
      .error (lit "route payload is too large")
    else .ok (blob ++ (toWire entry.fixed ++ host))

def routeReturnUpstreamFixed : RouteReturnFixed := ⟨routeReturnUpstream, 0, 0⟩

def distRoutePlanAppendReturnUpstream (blob : Bytes) : Except Bytes Bytes :=
  if blob.length > uint32Max - sizeof RouteReturnFixed then
    .error (lit "route payload is too large")
  else .ok (blob ++ toWire routeReturnUpstreamFixed)

section Plan
variable {state : CoordinatorState}

/-- The entry of a worker; the host is copied with `snprintf` into an array. -/
def WorkerEntry.route (w : WorkerEntry state) : RouteEntry where
  host := (cstr w.peerHost).take (niMaxHost - 1)
  port := w.listenPort
  layerStart := w.layerStart
  layerEnd := w.layerEnd
  flags := if w.hasOutput then routeFOutputLogits else 0

/-- The entries of a path are appended one by one, each with its part of the blob. -/
def appendEntries (plan : RoutePlan) : List (WorkerEntry state) → Except Bytes RoutePlan
  | [] => .ok plan
  | w :: ws =>
    match distRoutePlanAppendBlob plan.blob w.route with
    | .error err => .error err
    | .ok blob => appendEntries ⟨plan.entry ++ [w.route], blob⟩ ws

def distCoordinatorBuildRoutePlan (state : CoordinatorState)
    (registered : List (WorkerEntry state)) : Except Bytes RoutePlan :=
  let workers := sortWorkers registered
  let last := state.nLayers - 1
  if state.localStart ≠ 0 then .error (lit "coordinator route does not start at layer 0")
  else if state.localEnd = last && (state.localHasOutput || state.localCanOutputHead) then
    .ok .empty
  else
    match distRouteSearchWorkers workers (state.localEnd + 1) last with
    | (false, _, missing) =>
      .error (lit "distributed route incomplete: missing layer " ++ dec missing)
    | (true, path, _) =>
      match appendEntries .empty path with
      | .error err => .error err
      | .ok plan =>
        if plan.count = 0 then .ok plan
        else
          match distRoutePlanAppendReturnUpstream plan.blob with
          | .error err => .error err
          | .ok blob => .ok { plan with blob }

end Plan

def distBytesHaveNul (p : Bytes) (len : Nat) : Bool := 0 ∈ p.take len

/-- The loop of `dist_route_get_entry` over the entries that are left. -/
def distRouteGetEntryLoop : Nat → Nat → Bytes → Except Bytes RouteEntry
  | 0, _, p =>
    if p.length ≠ 0 then .error (lit "route payload has trailing bytes")
    else .error (lit "route entry not found")
  | count + 1, target, p =>
    if p.length < sizeof RouteFixed then .error (lit "truncated route entry")
    else
      let fixed : RouteFixed := fromWire (p.take (sizeof RouteFixed))
      let p := p.drop (sizeof RouteFixed)
      let hostLen := fixed.hostLen.toNat
      if hostLen = 0 || hostLen ≥ niMaxHost || hostLen > p.length then
        .error (lit "invalid route host length")
      else if distBytesHaveNul p hostLen then .error (lit "route host contains NUL bytes")
      else
        match target with
        | 0 => .ok ⟨p.take hostLen, fixed.port, fixed.layerStart, fixed.layerEnd, fixed.flags⟩
        | target + 1 => distRouteGetEntryLoop count target (p.drop hostLen)

def distRouteGetEntry (blob : Option Bytes) (count target : Nat) : Except Bytes RouteEntry :=
  match blob with
  | none => .error (lit "invalid route entry index")
  | some p =>
    if target ≥ count then .error (lit "invalid route entry index")
    else distRouteGetEntryLoop count target p

/-- The loop of `dist_route_get_return_target` over the entries. -/
def distRouteSkipEntries : Nat → Bytes → Except Bytes Bytes
  | 0, p => .ok p
  | count + 1, p =>
    if p.length < sizeof RouteFixed then .error (lit "truncated route entry")
    else
      let fixed : RouteFixed := fromWire (p.take (sizeof RouteFixed))
      let p := p.drop (sizeof RouteFixed)
      let hostLen := fixed.hostLen.toNat
      if hostLen > p.length then .error (lit "invalid route host length")
      else if distBytesHaveNul p hostLen then .error (lit "route host contains NUL bytes")
      else distRouteSkipEntries count (p.drop hostLen)

def distRouteGetReturnTarget (blob : Option Bytes) (count : Nat) : Except Bytes RouteReturn :=
  match blob with
  | none => .error (lit "invalid route final destination")
  | some p =>
    if count = 0 then .error (lit "invalid route final destination")
    else
      match distRouteSkipEntries count p with
      | .error err => .error err
      | .ok p =>
        if p.length < sizeof RouteReturnFixed then
          .error (lit "route payload missing final destination")
        else
          let fixed : RouteReturnFixed := fromWire (p.take (sizeof RouteReturnFixed))
          let p := p.drop (sizeof RouteReturnFixed)
          let hostLen := fixed.hostLen.toNat
          if hostLen ≥ niMaxHost || hostLen > p.length then
            .error (lit "invalid route final destination host length")
          else if distBytesHaveNul p hostLen then
            .error (lit "route final destination host contains NUL bytes")
          else if (p.drop hostLen).length ≠ 0 then .error (lit "route payload has trailing bytes")
          else .ok ⟨p.take hostLen, fixed.port, fixed.kind⟩

/-- The loop of `dist_route_validate_blob`, with the end of the range before, if there is one. -/
def distRouteValidateEntries (nLayers : UInt32) : Nat → Option UInt32 → Bytes → Except Bytes Bytes
  | 0, _, p => .ok p
  | count + 1, prevEnd, p =>
    if p.length < sizeof RouteFixed then .error (lit "truncated route entry")
    else
      let fixed : RouteFixed := fromWire (p.take (sizeof RouteFixed))
      let p := p.drop (sizeof RouteFixed)
      let hostLen := fixed.hostLen.toNat
      match refuse [
        (hostLen = 0 || hostLen ≥ niMaxHost || hostLen > p.length,
          lit "invalid route host length"),
        (distBytesHaveNul p hostLen, lit "route host contains NUL bytes"),
        (fixed.port = 0 || fixed.port > 65535, lit "invalid route port"),
        (fixed.layerStart ≥ nLayers || fixed.layerEnd ≥ nLayers ||
          fixed.layerEnd < fixed.layerStart, lit "invalid route layer range"),
        (fixed.flags &&& ~~~routeFOutputLogits ≠ 0, lit "invalid route flags"),
        (hasFlag fixed.flags routeFOutputLogits && fixed.layerEnd + 1 ≠ nLayers,
          lit "route logits require final layer"),
        (prevEnd.any fun e => fixed.layerStart ≠ e + 1,
          lit "route layer ranges are not contiguous")] with
      | .error err => .error err
      | .ok () =>
        distRouteValidateEntries nLayers count (some fixed.layerEnd) (p.drop hostLen)

def distRouteValidateBlob (blob : Option Bytes) (count : Nat) (nLayers : UInt32) :
    Except Bytes Unit :=
  if count = 0 then
    if (orEmpty blob).length = 0 then .ok ()
    else .error (lit "route payload has entries without a route count")
  else
    match blob with
    | none => .error (lit "route payload is missing")
    | some p =>
      match distRouteValidateEntries nLayers count none p with
      | .error err => .error err
      | .ok p =>
        if p.length < sizeof RouteReturnFixed then
          .error (lit "route payload missing final destination")
        else
          let ret : RouteReturnFixed := fromWire (p.take (sizeof RouteReturnFixed))
          let p := p.drop (sizeof RouteReturnFixed)
          let hostLen := ret.hostLen.toNat
          refuse [
            (hostLen ≥ niMaxHost || hostLen > p.length,
              lit "invalid route final destination host length"),
            (distBytesHaveNul p hostLen, lit "route final destination host contains NUL bytes"),
            (ret.kind ≠ routeReturnUpstream, lit "unsupported route final destination"),
            (ret.hostLen ≠ 0 || ret.port ≠ 0, lit "invalid upstream route final destination"),
            ((p.drop hostLen).length ≠ 0, lit "route payload has trailing bytes")]

/-- A host that can travel in a blob. -/
structure RouteEntry.Sendable (e : RouteEntry) : Prop where
  host_ne : e.host ≠ []
  noNul : 0 ∉ e.host
  short : e.host.length < niMaxHost

/-- The part of the blob that an entry gets. -/
def putEntry (e : RouteEntry) : Bytes := toWire e.fixed ++ e.host

def putEntries (es : List RouteEntry) : Bytes := es.flatMap putEntry

section Blob
variable {e : RouteEntry} {es : List RouteEntry} {blob blob' s : Bytes}

theorem putEntries_cons (e : RouteEntry) (es : List RouteEntry) :
    putEntries (e :: es) = putEntry e ++ putEntries es := rfl

theorem putEntries_append (es ds : List RouteEntry) :
    putEntries (es ++ ds) = putEntries es ++ putEntries ds := List.flatMap_append

theorem distRoutePlanAppendBlob_ok (h : distRoutePlanAppendBlob blob e = .ok blob')
    (hnul : 0 ∉ e.host) : e.Sendable ∧ blob' = blob ++ putEntry e := by
  rw [distRoutePlanAppendBlob, cstr_of_notMem hnul] at h
  dsimp only at h
  split at h
  · cases h
  · next hlen =>
    split at h
    · cases h
    · simp only [Bool.or_eq_true, decide_eq_true_eq, not_or, Nat.not_le] at hlen
      cases h
      refine ⟨⟨?_, hnul, hlen.2⟩, rfl⟩
      intro hnil
      exact hlen.1 (congrArg List.length hnil)

theorem RouteEntry.Sendable.hostLen (h : e.Sendable) :
    e.fixed.hostLen.toNat = e.host.length := by
  have hlt : e.host.length < 2 ^ 32 := Nat.lt_trans h.short (by decide)
  rw [RouteEntry.fixed, cstr_of_notMem h.noNul, UInt32.toNat_ofNat_of_lt' hlt]

/-- What every reader finds at the start of an entry. -/
theorem RouteEntry.Sendable.read (h : e.Sendable) (s : Bytes) :
    ¬(putEntry e ++ s).length < sizeof RouteFixed ∧
      fromWire ((putEntry e ++ s).take (sizeof RouteFixed)) = e.fixed ∧
      (putEntry e ++ s).drop (sizeof RouteFixed) = e.host ++ s ∧
      distBytesHaveNul (e.host ++ s) e.host.length = false := by
  have hlen : (toWire e.fixed).length = sizeof RouteFixed := length_toWire e.fixed
  rw [putEntry, List.append_assoc]
  refine ⟨?_, ?_, List.drop_left' hlen, ?_⟩
  · rw [List.length_append, hlen]
    omega
  · rw [List.take_left' hlen, fromWire_toWire]
  · rw [distBytesHaveNul, List.take_left' rfl]
    exact decide_eq_false h.noNul

theorem RouteEntry.Sendable.length_ok (h : e.Sendable) (s : Bytes) :
    (decide (e.host.length = 0) || decide (e.host.length ≥ niMaxHost) ||
      decide (e.host.length > (e.host ++ s).length)) = false := by
  have hne : e.host.length ≠ 0 := fun h0 => h.host_ne (List.eq_nil_of_length_eq_zero h0)
  have hshort := h.short
  rw [List.length_append]
  simp only [Bool.or_eq_false_iff, decide_eq_false_iff_not]
  omega

theorem distRouteGetEntryLoop_putEntries (h : ∀ e ∈ es, e.Sendable) {i : Nat}
    (hi : es[i]? = some d) :
    distRouteGetEntryLoop es.length i (putEntries es ++ s) = .ok d := by
  induction es generalizing i with
  | nil => cases hi
  | cons e es ih =>
    have he : e.Sendable := h e List.mem_cons_self
    obtain ⟨hlong, hfixed, hrest, hnul⟩ := he.read (putEntries es ++ s)
    rw [List.length_cons, distRouteGetEntryLoop, putEntries_cons, List.append_assoc,
      if_neg hlong, hfixed, hrest]
    dsimp only
    rw [he.hostLen, he.length_ok, if_neg Bool.false_ne_true, hnul, if_neg Bool.false_ne_true]
    cases i with
    | zero =>
      cases hi
      dsimp only
      rw [List.take_left' rfl]
      rfl
    | succ i =>
      dsimp only
      rw [List.drop_left' rfl]
      exact ih (fun d hd => h d (List.mem_cons_of_mem _ hd)) hi

theorem distRouteSkipEntries_putEntries (h : ∀ e ∈ es, e.Sendable) :
    distRouteSkipEntries es.length (putEntries es ++ s) = .ok s := by
  induction es with
  | nil => rfl
  | cons e es ih =>
    have he : e.Sendable := h e List.mem_cons_self
    obtain ⟨hlong, hfixed, hrest, hnul⟩ := he.read (putEntries es ++ s)
    have hlen : ¬e.host.length > (e.host ++ (putEntries es ++ s)).length := by
      rw [List.length_append]
      omega
    rw [List.length_cons, distRouteSkipEntries, putEntries_cons, List.append_assoc,
      if_neg hlong, hfixed, hrest]
    dsimp only
    rw [he.hostLen, if_neg hlen, hnul, if_neg Bool.false_ne_true, List.drop_left' rfl]
    exact ih fun d hd => h d (List.mem_cons_of_mem _ hd)

/-- The final destination that every plan has. -/
def upstreamReturn : RouteReturn := ⟨[], 0, routeReturnUpstream⟩

theorem distRouteGetReturnTarget_putEntries (h : ∀ e ∈ es, e.Sendable) (hne : es ≠ []) :
    distRouteGetReturnTarget (some (putEntries es ++ toWire routeReturnUpstreamFixed)) es.length =
      .ok upstreamReturn := by
  have hcount : es.length ≠ 0 := fun h0 => hne (List.eq_nil_of_length_eq_zero h0)
  rw [distRouteGetReturnTarget]
  dsimp only
  rw [if_neg hcount, distRouteSkipEntries_putEntries h]
  decide

end Blob

section Chain
variable {state : CoordinatorState} {ws : List (WorkerEntry state)} {w : WorkerEntry state}
  {last next : Nat} {s : Bytes}

theorem zero_notMem_route (w : WorkerEntry state) : 0 ∉ w.route.host := fun h =>
  zero_notMem_cstr w.peerHost (List.mem_of_mem_take h)

/-- The entry of a registered worker passes the checks of its fields. -/
theorem WorkerEntry.route_fixed (w : WorkerEntry state) :
    (decide (w.route.fixed.port = 0) || decide (w.route.fixed.port > 65535)) = false ∧
    (decide (w.route.fixed.layerStart ≥ state.nLayers) ||
      decide (w.route.fixed.layerEnd ≥ state.nLayers) ||
      decide (w.route.fixed.layerEnd < w.route.fixed.layerStart)) = false ∧
    decide (w.route.fixed.flags &&& ~~~routeFOutputLogits ≠ 0) = false ∧
    (hasFlag w.route.fixed.flags routeFOutputLogits &&
      decide (w.route.fixed.layerEnd + 1 ≠ state.nLayers)) = false := by
  have hport := w.port
  have hrange := w.range
  have hless : w.layerStart < state.nLayers :=
    Nat.lt_of_le_of_lt (UInt32.le_iff_toNat_le.mp hrange.1) (UInt32.lt_iff_toNat_lt.mp hrange.2)
  have hflags : w.route.fixed.flags = if w.hasOutput then routeFOutputLogits else 0 := rfl
  have hstart : w.route.fixed.layerStart = w.layerStart := rfl
  have hend : w.route.fixed.layerEnd = w.layerEnd := rfl
  have hp : w.route.fixed.port = w.listenPort := rfl
  rw [hflags, hstart, hend, hp]
  refine ⟨?_, ?_, ?_, ?_⟩
  · simp only [Bool.or_eq_false_iff, decide_eq_false_iff_not, gt_iff_lt, UInt32.not_lt]
    exact hport
  · simp only [Bool.or_eq_false_iff, decide_eq_false_iff_not, ge_iff_le, UInt32.not_le,
      UInt32.not_lt]
    exact ⟨⟨hless, hrange.2⟩, hrange.1⟩
  · cases w.hasOutput <;> decide
  · cases ho : w.hasOutput with
    | false => rfl
    | true => simp [w.output ho]

/-- The check goes on behind the entry of a worker that starts where the entry before it stopped. -/
theorem distRouteValidateEntries_step {es : List RouteEntry} {count : Nat}
    (h : w.route.Sendable) (prevEnd : Option UInt32)
    (hprev : ∀ e ∈ prevEnd, w.layerStart.toNat = (e + 1).toNat)
    (hrest : distRouteValidateEntries state.nLayers count (some w.layerEnd)
      (putEntries es ++ s) = .ok s) :
    distRouteValidateEntries state.nLayers (count + 1) prevEnd
      (putEntries (w.route :: es) ++ s) = .ok s := by
  obtain ⟨hlong, hfixed, hbytes, hnul⟩ := h.read (putEntries es ++ s)
  obtain ⟨hport, hrange, hflags, hlogits⟩ := w.route_fixed
  have hcont : (prevEnd.any fun e => decide (w.route.fixed.layerStart ≠ e + 1)) = false := by
    cases prevEnd with
    | none => rfl
    | some e =>
      have hs : w.route.fixed.layerStart = e + 1 := UInt32.toNat_inj.mp (hprev e rfl)
      rw [Option.any_some, hs]
      exact decide_eq_false fun hne => hne rfl
  rw [distRouteValidateEntries, putEntries_cons, List.append_assoc, if_neg hlong, hfixed, hbytes]
  dsimp only
  rw [h.hostLen, h.length_ok, hnul, hport, hrange, hflags, hlogits, hcont]
  dsimp only [refuse]
  rw [List.drop_left' rfl]
  exact hrest

/-- The blob of a chain passes the check, entry by entry. -/
theorem distRouteValidateEntries_chain (h : Chain last next ws)
    (hsend : ∀ w ∈ ws, w.route.Sendable) (prevEnd : Option UInt32)
    (hprev : ∀ e ∈ prevEnd, (e + 1).toNat = next) :
    distRouteValidateEntries state.nLayers ws.length prevEnd
      (putEntries (ws.map WorkerEntry.route) ++ s) = .ok s := by
  induction h generalizing prevEnd with
  | @final w next start _ _ =>
    rw [List.map_singleton, List.length_singleton]
    exact distRouteValidateEntries_step (hsend w List.mem_cons_self) prevEnd
      (fun e he => start.trans (hprev e he).symm) rfl
  | @hop w ws next start _ _ _ ih =>
    rw [List.map_cons, List.length_cons]
    apply distRouteValidateEntries_step (hsend w List.mem_cons_self) prevEnd
      (fun e he => start.trans (hprev e he).symm)
    apply ih fun v hv => hsend v (List.mem_cons_of_mem _ hv)
    intro e he
    cases Option.mem_some_iff.mp he
    exact w.toNat_layerEnd_add_one

/-- Appending the entries of a path, when it succeeds. -/
theorem appendEntries_ok {plan plan' : RoutePlan} {path : List (WorkerEntry state)}
    (h : appendEntries plan path = .ok plan') :
    (∀ w ∈ path, w.route.Sendable) ∧ plan'.entry = plan.entry ++ path.map WorkerEntry.route ∧
      plan'.blob = plan.blob ++ putEntries (path.map WorkerEntry.route) := by
  induction path generalizing plan with
  | nil =>
    cases h
    refine ⟨fun _ hw => (nomatch hw), (List.append_nil _).symm, (List.append_nil _).symm⟩
  | cons w ws ih =>
    rw [appendEntries] at h
    split at h
    · cases h
    · next blob hblob =>
      obtain ⟨hw, rfl⟩ := distRoutePlanAppendBlob_ok hblob (zero_notMem_route w)
      obtain ⟨hws, hentry, hbytes⟩ := ih h
      refine ⟨?_, ?_, ?_⟩
      · intro v hv
        cases hv with
        | head => exact hw
        | tail _ hv => exact hws v hv
      · rw [hentry, List.map_cons, List.append_assoc, List.singleton_append]
      · rw [hbytes, List.map_cons, putEntries_cons, List.append_assoc]

theorem layerEnd_le_last (w : WorkerEntry state) : w.layerEnd ≤ state.nLayers - 1 := by
  have hw : w.layerEnd.toNat < state.nLayers.toNat := w.range.2
  have hone : (1 : UInt32) ≤ state.nLayers :=
    UInt32.le_iff_toNat_le.mpr (Nat.lt_of_le_of_lt (Nat.zero_le _) hw)
  apply UInt32.le_iff_toNat_le.mpr
  rw [UInt32.toNat_sub_of_le _ _ hone]
  exact Nat.le_sub_one_of_lt hw

/-- The search over the sorted workers finds a chain of registered workers. -/
theorem distRouteSearchWorkers_sound {registered path : List (WorkerEntry state)} {next m : UInt32}
    (h : distRouteSearchWorkers (sortWorkers registered) next (state.nLayers - 1) =
      (true, path, m)) :
    Chain (state.nLayers - 1).toNat next.toNat path ∧ ∀ p ∈ path, p ∈ registered := by
  rw [distRouteSearchWorkers] at h
  obtain ⟨ps, hps, hchain, hmem⟩ :=
    (distRouteSearchFrom_sound (fun w _ => layerEnd_le_last w) fun _ hw => hw).2 path m h
  rw [List.nil_append] at hps
  rw [hps]
  exact ⟨hchain, fun p hp => mem_sortWorkers.mp (hmem p hp)⟩

theorem distRouteSearchWorkers_complete {registered ps : List (WorkerEntry state)} {next : UInt32}
    (h : Chain (state.nLayers - 1).toNat next.toNat ps) (hps : ∀ p ∈ ps, p ∈ registered) :
    (distRouteSearchWorkers (sortWorkers registered) next (state.nLayers - 1)).1 = true := by
  obtain ⟨w, ws, rfl⟩ := List.exists_cons_of_ne_nil h.ne_nil
  have hsort := sortWorkers_pairwise registered
  exact distRouteSearchFrom_complete hsort hsort h
    (mem_sortWorkers.mpr (hps w List.mem_cons_self))
    fun p hp => mem_sortWorkers.mpr (hps p (List.mem_cons_of_mem _ hp))

/-- The workers of a plan are a route behind the layers of the coordinator, and every worker that
gets the blob reads the plan from it. -/
structure RoutePlan.Sound (plan : RoutePlan) (state : CoordinatorState)
    (ps : List (WorkerEntry state)) : Prop where
  chain : Chain (state.nLayers - 1).toNat (state.localEnd + 1).toNat ps
  nodup : ps.Nodup
  entries : plan.entry = ps.map WorkerEntry.route
  accepted : distRouteValidateBlob (some plan.blob) plan.count state.nLayers = .ok ()
  entry : ∀ i e, plan.entry[i]? = some e →
    distRouteGetEntry (some plan.blob) plan.count i = .ok e
  destination : distRouteGetReturnTarget (some plan.blob) plan.count = .ok upstreamReturn

theorem RoutePlan.sound_of_chain {ps : List (WorkerEntry state)}
    (h : Chain (state.nLayers - 1).toNat (state.localEnd + 1).toNat ps)
    (hsend : ∀ w ∈ ps, w.route.Sendable) :
    RoutePlan.Sound ⟨ps.map WorkerEntry.route,
      putEntries (ps.map WorkerEntry.route) ++ toWire routeReturnUpstreamFixed⟩ state ps := by
  have hsend' : ∀ e ∈ ps.map WorkerEntry.route, e.Sendable := by
    intro e he
    obtain ⟨w, hw, rfl⟩ := List.mem_map.mp he
    exact hsend w hw
  have hne : ps.map WorkerEntry.route ≠ [] := fun h0 => h.ne_nil (List.map_eq_nil_iff.mp h0)
  have hcount : (ps.map WorkerEntry.route).length ≠ 0 :=
    fun h0 => hne (List.eq_nil_of_length_eq_zero h0)
  refine ⟨h, h.nodup, rfl, ?_, ?_, distRouteGetReturnTarget_putEntries hsend' hne⟩
  · have hvalid := distRouteValidateEntries_chain (s := toWire routeReturnUpstreamFixed) h hsend
      none fun _ he => nomatch he
    rw [← List.length_map (f := WorkerEntry.route)] at hvalid
    rw [distRouteValidateBlob, RoutePlan.count, if_neg hcount]
    dsimp only
    rw [hvalid]
    decide
  · intro i e hi
    have hlt : i < (ps.map WorkerEntry.route).length := (List.getElem?_eq_some_iff.mp hi).1
    rw [distRouteGetEntry, RoutePlan.count]
    dsimp only
    rw [if_neg (Nat.not_le.mpr hlt)]
    exact distRouteGetEntryLoop_putEntries hsend' hi

theorem distCoordinatorBuildRoutePlan_ok {registered : List (WorkerEntry state)} {plan : RoutePlan}
    (h : distCoordinatorBuildRoutePlan state registered = .ok plan) :
    state.localEnd = state.nLayers - 1 ∧ plan = .empty ∨
      ∃ ps, plan.Sound state ps ∧ ∀ p ∈ ps, p ∈ registered := by
  rw [distCoordinatorBuildRoutePlan] at h
  split at h
  · cases h
  · split at h
    · next hlocal =>
      cases h
      simp only [Bool.and_eq_true, decide_eq_true_eq] at hlocal
      exact .inl ⟨hlocal.1, rfl⟩
    · split at h
      · cases h
      · next path m hsearch =>
        right
        obtain ⟨hchain, hmem⟩ := distRouteSearchWorkers_sound hsearch
        split at h
        · cases h
        · next plan₁ happend =>
          obtain ⟨hsend, hentry, hblob⟩ := appendEntries_ok happend
          have hcount : plan₁.count ≠ 0 := by
            rw [RoutePlan.count, hentry]
            simpa [RoutePlan.empty] using hchain.ne_nil
          rw [if_neg hcount] at h
          split at h
          · cases h
          · next blob hret =>
            rw [distRoutePlanAppendReturnUpstream] at hret
            split at hret
            · cases hret
            · cases hret
              cases h
              refine ⟨path, ?_, hmem⟩
              rw [hentry, hblob]
              exact RoutePlan.sound_of_chain hchain hsend

end Chain

/-- The search returns true exactly when some registered workers, each used once, are a route from a
layer to the last one; the route ends with a worker that owns the output, or that returns hidden
states to a coordinator that has the output head. Every plan that is built is such a route, and its
blob decodes to it. -/
theorem route_search_and_plan (state : CoordinatorState) (registered : List (WorkerEntry state)) :
    (∀ next : UInt32,
      (distRouteSearchWorkers (sortWorkers registered) next (state.nLayers - 1)).1 = true ↔
        ∃ ps, Chain (state.nLayers - 1).toNat next.toNat ps ∧ ps.Nodup ∧
          ∀ p ∈ ps, p ∈ registered) ∧
    ∀ plan, distCoordinatorBuildRoutePlan state registered = .ok plan →
      state.localEnd = state.nLayers - 1 ∧ plan = .empty ∨
        ∃ ps, plan.Sound state ps ∧ ∀ p ∈ ps, p ∈ registered := by
  refine ⟨fun next => ⟨fun h => ?_, fun h => ?_⟩, fun plan => distCoordinatorBuildRoutePlan_ok⟩
  · obtain ⟨hchain, hmem⟩ := distRouteSearchWorkers_sound (Prod.ext h rfl)
    exact ⟨_, hchain, hchain.nodup, hmem⟩
  · obtain ⟨ps, hchain, -, hmem⟩ := h
    exact distRouteSearchWorkers_complete hchain hmem

/-- A coordinator with the output head and two layers, of which it runs the first. -/
def headState : CoordinatorState where
  modelId := 1
  modelName := []
  nLayers := 2
  localStart := 0
  localEnd := 0
  ctxSize := 0
  localHasOutput := false
  localCanOutputHead := true
  activationBits := 32
  generation := 0

/-- The worker of the second layer, without the output head. -/
def hiddenWorker : WorkerEntry headState where
  peerHost := lit "10.0.0.2"
  hello := ⟨1, 4, 1, 1, 0, 1, 0, 2, 9000, 0⟩
  modelName := []
  accepted := rfl

theorem headState_route :
    ∃ ps, Chain (headState.nLayers - 1).toNat (1 : UInt32).toNat ps ∧ ps.Nodup ∧
      ∀ p ∈ ps, p ∈ [hiddenWorker] := by
  have hchain : Chain (headState.nLayers - 1).toNat (1 : UInt32).toNat [hiddenWorker] :=
    .final rfl rfl (.inr ⟨rfl, rfl⟩)
  have hfound := distRouteSearchWorkers_complete hchain fun _ hp => hp
  exact ((route_search_and_plan headState [hiddenWorker]).1 1).mp hfound

/-- A route is found although no worker owns the output. -/
theorem route_without_output :
    ¬∀ (state : CoordinatorState) (registered : List (WorkerEntry state)) (next : UInt32),
      (distRouteSearchWorkers (sortWorkers registered) next (state.nLayers - 1)).1 = true ↔
        ∃ ps, Chain (state.nLayers - 1).toNat next.toNat ps ∧ ps.Nodup ∧
          (∀ p ∈ ps, p ∈ registered) ∧ ∃ p ∈ ps.getLast?, p.hasOutput = true := by
  intro h
  have hchain : Chain (headState.nLayers - 1).toNat (1 : UInt32).toNat [hiddenWorker] :=
    .final rfl rfl (.inr ⟨rfl, rfl⟩)
  have hfound := distRouteSearchWorkers_complete hchain fun _ hp => hp
  obtain ⟨ps, -, -, hmem, p, hp, hout⟩ := (h headState [hiddenWorker] 1).mp hfound
  cases List.mem_singleton.mp (hmem p (List.mem_of_getLast? hp))
  cases hout

end Ds4.Dist
