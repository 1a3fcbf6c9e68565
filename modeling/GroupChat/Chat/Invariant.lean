import GroupChat.Chat.Session

/-!
# The invariant of the chat

The sessions and the server, in a run whose steps are as they should be
(`GroupChat.Chat.Orderly`): calls of `read` are whole, signals come when the client has its
name, accepted descriptors are new, and no delivery loop comes to a client before its
response. Then every session is linked, and no two have the same descriptor
(`GroupChat.Chat.Inv`).

What the other parts of this development ask of clients is found here to be so: requests end
within their fields, and every message carries the id and the group that the server has
assigned to its sender (`GroupChat.Linked.honest_of_mem`), because the client has them
from its response, and the response is on the stream before anything else.
-/

namespace GroupChat

open Lobby Framing ByteLayout

/-! ### The server -/

namespace Server

variable {nc n : ℕ}

/-- Everything that holds of the server in a run whose steps are as they should be. -/
structure Sound (n : ℕ) (v : Server nc) : Prop where
  inv : v.Inv n
  distinct : v.Distinct
  sweeps : v.Sweeps
  addressed : v.Addressed
  streams : v.Streams
  post : v.Post
  names : v.lobby.Inv
  honest : v.AllHonest

theorem Initial.sound {v : Server nc} (h : v.Initial n) : v.Sound n where
  inv := h.inv
  distinct := h.distinct
  sweeps := h.sweeps
  addressed := h.addressed
  streams := h.streams
  post := h.post
  names := h.lobby ▸ inv_start
  honest k m hmem := by simp [h.sent] at hmem

/-- A move as it should be. -/
structure Proper (v : Server nc) (mv : ServerMove nc) : Prop where
  fresh : v.FreshAccept mv
  answered : v.Answered mv
  honest : v.Honest mv
  terminated : ∀ fd request, mv = .join fd request → request.Terminated

end Server

open Server

variable {nc n : ℕ}

/-- Names are kept if those that join are terminated. -/
theorem Server.Inv.names_step {v w : Server nc} {mv : ServerMove nc} (hinv : v.Inv n)
    (h : v.lobby.Inv) (hterm : ∀ fd request, mv = .join fd request → request.Terminated)
    (hexec : (server nc).exec v mv = some w) : w.lobby.Inv := by
  obtain ⟨hen, heff⟩ := StepSystem.exec_eq_some.mp hexec
  have hstep := hinv.step hexec
  cases hstep with
  | @join fd request l hmem hl =>
    obtain ⟨l', hl', heq⟩ := Option.map_eq_some_iff.mp heff
    obtain rfl : l' = l := congrArg Server.lobby heq
    refine h.step (m := .join fd request) ?_ (StepSystem.exec_eq_some.mpr ⟨trivial, hl'⟩)
    intro r hr
    obtain rfl := List.mem_singleton.mp hr
    exact hterm fd r rfl
  | @respond k m hm hphase =>
    exact h.step (m := .respond k) (by simp [requests])
      (StepSystem.exec_eq_some.mpr ⟨hen, rfl⟩)
  | @depart k l hl =>
    obtain ⟨l', hl', heq⟩ := Option.map_eq_some_iff.mp heff
    obtain rfl : l' = l := congrArg Server.lobby heq
    exact h.step (m := .depart k) (by simp [requests]) (StepSystem.exec_eq_some.mpr ⟨hen, hl'⟩)
  | _ => exact h

/-- **Every proper move keeps the server sound.** -/
theorem Server.Sound.step {v w : Server nc} {mv : ServerMove nc} (h : v.Sound n)
    (hproper : v.Proper mv) (hexec : (server nc).exec v mv = some w) : w.Sound n := by
  have hstep := h.inv.step hexec
  exact ⟨hstep.inv h.inv, hstep.distinct h.distinct hproper.fresh,
    hstep.sweeps h.inv h.distinct h.sweeps, hstep.addressed h.addressed h.sweeps,
    h.streams.step h.distinct hproper.answered hstep, hstep.post h.post h.distinct h.streams,
    h.inv.names_step h.names hproper.terminated hexec,
    allHonest_of_step h.inv h.honest hproper.honest hstep⟩

/-- Every stream is aligned for some response. -/
theorem Server.Sound.exists_aligned {v : Server nc} (h : v.Sound n) (x : Session) :
    ∃ j, Aligned j (x.stream v) := by
  unfold Session.stream
  split
  · exact ⟨⟨0, 0⟩, Or.inl rfl⟩
  · rename_i fd _
    by_cases hmember : ∃ (k : ℕ) (r : Member), v.lobby.members[k]? = some r ∧ r.nsfd = fd
    · obtain ⟨k, r, hr, rfl⟩ := hmember
      exact ⟨_, h.streams.aligned k r hr⟩
    · push Not at hmember
      exact ⟨⟨0, 0⟩, Or.inl (h.streams.stranger fd hmember)⟩

/-! ### Sessions -/

namespace Linked

variable {args : Arguments} {v : Server nc} {x : Session}

/-- Who has joined is a member. -/
theorem exists_serves (h : Linked args v x) {k : ℕ} (hk : x.handler.member? = some k) :
    ∃ p, x.Serves v k p := by
  have hplaced := h.placed
  cases hx : x.handler
  all_goals
    simp only [hx, Handler.member?, reduceCtorEq, Option.some.injEq] at hk
  all_goals
    subst hk
    simp only [Session.Placed, hx] at hplaced
  case respond => exact ⟨_, hplaced.1⟩
  all_goals exact ⟨_, hplaced⟩

/-- A descriptor that has been accepted is one of the server's. -/
theorem mem_descriptors (h : Linked args v x) {fd : ℤ} (hfd : x.nsfd = some fd) :
    fd ∈ v.descriptors := by
  have hserves : ∀ k p, x.Serves v k p → fd ∈ v.descriptors := by
    rintro k p ⟨r, hr, hnsfd, -, -⟩
    obtain rfl := Option.some.inj (hfd.symm.trans hnsfd)
    exact List.mem_append_right _ (List.mem_map_of_mem (List.mem_of_getElem? hr))
  have hplaced := h.placed
  cases hx : x.handler
  all_goals simp only [Session.Placed, hx] at hplaced
  case absent => simp [hplaced] at hfd
  case readRequest | join =>
    obtain ⟨fd', hfd', hmem⟩ := hplaced
    obtain rfl := Option.some.inj (hfd.symm.trans hfd')
    exact List.mem_append_left _ hmem
  case respond => exact hserves _ _ hplaced.1
  all_goals exact hserves _ _ hplaced

/-- **The join request** that a handler has is the one that the client has made. -/
theorem joinRequest_carries (h : Linked args v x) (hshort : args.Short)
    (hhandler : x.handler ≠ .absent) (hread : x.handler ≠ .readRequest) :
    x.joinRequest.Terminated ∧ x.joinRequest.groupHandle = args.groupName := by
  have hconsumed : x.request <+: x.consumed v := by
    cases hx : x.handler <;> simp only [Session.consumed, hx]
    case absent => exact absurd hx hhandler
    case readRequest => exact absurd hx hread
    case join | respond => exact List.prefix_refl _
    all_goals exact List.prefix_append _ _
  have hbegins := hconsumed.trans h.outward
  rw [← List.append_nil x.request] at hbegins
  obtain ⟨hrank, hrequest, -⟩ := h.split hbegins
  rw [Session.joinRequest, hrequest]
  exact h.introduced.carries hshort (by omega)

/-- **Who has read its response** is a member that has been answered; the response is the
one for this member, and the messages that have been handled are its first letters. -/
theorem exists_member (h : Linked args v x) (hv : v.Sound n) (hans : x.Answered) :
    ∃ k r, x.handler.member? = some k ∧ v.lobby.members[k]? = some r ∧ x.nsfd = some r.nsfd ∧
      r.phase ≠ .joined ∧ x.client.response = response r ∧
      x.handled.map Prod.fst <+: (v.letters r.nsfd).map Prod.snd := by
  have hinward := h.inward
  rw [Session.obtained_of_answered hans] at hinward
  -- something has been read, so something has been written
  have hne : x.stream v ≠ [] := by
    intro hnil
    rw [hnil, List.prefix_nil, List.append_eq_nil_iff] at hinward
    have hlen := joinResponseCodec.length_encode x.client.response
    rw [hinward.1] at hlen
    exact absurd hlen (by decide)
  have hserves : ∀ k p, x.handler.member? = some k → x.Serves v k p → p ≠ .joined →
      ∃ k r, x.handler.member? = some k ∧ v.lobby.members[k]? = some r ∧ x.nsfd = some r.nsfd ∧
        r.phase ≠ .joined ∧ x.client.response = response r ∧
        x.handled.map Prod.fst <+: (v.letters r.nsfd).map Prod.snd := by
    rintro k p hk ⟨r, hr, hnsfd, rfl, -⟩ hphase
    rw [Session.stream, hnsfd] at hinward
    simp only [hv.post k r hr hphase] at hinward
    obtain ⟨hresponse, hletters⟩ := RecordCodec.encode_append_prefix hinward
    exact ⟨k, r, hk, hr, hnsfd, hphase, hresponse,
      RecordCodec.prefix_of_encodeAll_prefix (by decide) hletters⟩
  have hplaced := h.placed
  cases hx : x.handler
  all_goals simp only [Session.Placed, hx] at hplaced
  case absent => exact absurd (by rw [Session.stream, hplaced]) hne
  case readRequest | join =>
    obtain ⟨fd, hfd, hmem⟩ := hplaced
    refine absurd ?_ hne
    rw [Session.stream, hfd]
    exact hv.streams.stranger fd fun k r hr => hv.distinct.ne_of_mem_waiting hmem hr
  case respond k =>
    obtain ⟨⟨r, hr, hnsfd, hphase, -⟩, -⟩ := hplaced
    refine absurd ?_ hne
    rw [Session.stream, hnsfd]
    exact hv.streams.joined k r hr hphase
  all_goals
    rw [← hx]
    exact hserves _ _ (by rw [hx]; rfl) hplaced (by simp)

/-- A message that the client has sent carries what the server has assigned to it. -/
theorem honest_of_mem (h : Linked args v x) (hv : v.Sound n) {m : Message}
    (hm : m ∈ x.client.sent.map Prod.snd) :
    ∃ k r, x.handler.member? = some k ∧ v.lobby.members[k]? = some r ∧ x.nsfd = some r.nsfd ∧
      m.id.toInt = r.id ∧ m.groupId.toInt = r.groupId := by
  have hans : x.Answered := by
    by_contra hnot
    have hsilent := h.wire.silent (by rw [Session.Answered] at hnot; omega)
    simp [hsilent] at hm
  obtain ⟨k, r, hk, hr, hnsfd, -, hresponse, -⟩ := h.exists_member hv hans
  obtain ⟨y, hy, rfl⟩ := List.mem_map.mp hm
  have hsigned := h.identity.sent y hy
  have hlt := hv.inv.slots.lt_of_mem (List.mem_of_getElem? hr)
  -- the numbers of a member are small enough for an `int`
  refine ⟨k, r, hk, hr, hnsfd, ?_, ?_⟩
  · rw [hsigned.id, hresponse]
    exact Int32.toInt_ofNat_of_lt (hlt.2.trans (by decide))
  · rw [hsigned.groupId, hresponse]
    exact Int32.toInt_ofNat_of_lt (hlt.1.trans (by decide))

end Linked

/-! ### Steps -/

/-- **What a move does.** -/
inductive ChatStep {ι : Type*} [DecidableEq ι] {nc : ℕ} (args : ι → Arguments) (s : Chat ι nc) :
    ChatMove ι nc → Chat ι nc → Prop where
  | main {p : ι} {now : Timeval} {c : Client} (hrun : (s.session p).Running)
    (hnext : (s.session p).client.next ≠ .readResponse)
    (hc : (s.session p).client.main (args p) now (s.session p).client.response = some c) :
    ChatStep args s (.main p now) (s.put p { s.session p with client := c })
  | readResponse {p : ι} {result : ReadResult} {c : Client} (hrun : (s.session p).Running)
    (hnext : (s.session p).client.next = .readResponse)
    (hpossible : result.Possible joinResponseCodec.size ((s.session p).incoming s.server) false)
    (hc : (s.session p).client.main (args p) ⟨0, 0⟩ ((s.session p).response result) = some c) :
    ChatStep args s (.readResponse p result)
      (s.put p { s.session p with
        client := c
        received := (s.session p).received + result.bytes.length })
  | sigusr1 {p : ι} {now : Timeval} {c : Client} (hrun : (s.session p).Running)
    (hc : (s.session p).client.handleMy now = some c) :
    ChatStep args s (.sigusr1 p now) (s.put p { s.session p with client := c })
  | receive {p : ι} {result : ReadResult} {now : Timeval} (hrun : (s.session p).Running)
    (hans : (s.session p).Answered)
    (hpossible : result.Possible messageCodec.size ((s.session p).incoming s.server) false) :
    ChatStep args s (.receive p result now) (s.put p ((s.session p).receive result now))
  | exit {p : ι} (hrun : (s.session p).Running) :
    ChatStep args s (.exit p) (s.put p { s.session p with exited := true })
  | accept {p : ι} {fd : ℤ} {v : Server nc} (hnsfd : (s.session p).nsfd = none)
    (hsd : (s.session p).client.sd = .connected)
    (hv : (server nc).exec s.server (.accept fd) = some v) :
    ChatStep args s (.accept p fd)
      ({ s with server := v }.put p
        { s.session p with nsfd := some fd, handler := .readRequest })
  | readRequest {p : ι} {result : ReadResult} (hhandler : (s.session p).handler = .readRequest)
    (hpossible : result.Possible joinRequestCodec.size (s.session p).outgoing
      (s.session p).exited) :
    ChatStep args s (.readRequest p result) (s.put p ((s.session p).readRequest result))
  | join {p : ι} {fd : ℤ} {v : Server nc} (hhandler : (s.session p).handler = .join)
    (hnsfd : (s.session p).nsfd = some fd)
    (hv : (server nc).exec s.server (.join fd (s.session p).joinRequest) = some v) :
    ChatStep args s (.join p fd)
      ({ s with server := v }.put p
        { s.session p with handler := .respond s.server.lobby.members.length })
  | respond {p : ι} {k : ℕ} {v : Server nc} (hhandler : (s.session p).handler = .respond k)
    (hv : (server nc).exec s.server (.respond k) = some v) :
    ChatStep args s (.respond p k)
      ({ s with server := v }.put p { s.session p with handler := .read k })
  | read {p : ι} {k : ℕ} {result : ReadResult} (hhandler : (s.session p).handler = .read k)
    (hpossible : result.Possible messageCodec.size (s.session p).outgoing (s.session p).exited) :
    ChatStep args s (.read p k result) (s.put p ((s.session p).read k result))
  | insert {p : ι} {k : ℕ} {now : Timeval} {v : Server nc}
    (hhandler : (s.session p).handler = .insert k)
    (hv : (server nc).exec s.server (.enqueue k (s.session p).inserted now) = some v) :
    ChatStep args s (.insert p k now)
      ({ s with server := v }.put p { s.session p with handler := .read k })
  | depart {p : ι} {k : ℕ} {v : Server nc} (hhandler : (s.session p).handler = .depart k)
    (hv : (server nc).exec s.server (.depart k) = some v) :
    ChatStep args s (.depart p k)
      ({ s with server := v }.put p { s.session p with handler := .ended k })
  | pop {c : Fin nc} {v : Server nc} (hv : (server nc).exec s.server (.pop c) = some v) :
    ChatStep args s (.pop c) { s with server := v }
  | turn {c : Fin nc} {v : Server nc} (hv : (server nc).exec s.server (.turn c) = some v) :
    ChatStep args s (.turn c) { s with server := v }

/-- **Every move is one of these.** -/
theorem Chat.step_of_exec {ι : Type*} [DecidableEq ι] {args : ι → Arguments} {s t : Chat ι nc}
    {m : ChatMove ι nc} (hexec : (chat nc args).exec s m = some t) : ChatStep args s m t := by
  obtain ⟨hen, heff⟩ := StepSystem.exec_eq_some.mp hexec
  cases m with
  | main p now =>
    obtain ⟨c, hc, rfl⟩ := Option.map_eq_some_iff.mp heff
    exact .main hen.1 hen.2 hc
  | readResponse p result =>
    obtain ⟨c, hc, rfl⟩ := Option.map_eq_some_iff.mp heff
    exact .readResponse hen.1 hen.2.1 hen.2.2 hc
  | sigusr1 p now =>
    simp only [chat] at heff
    obtain ⟨c, hc, rfl⟩ := Option.map_eq_some_iff.mp heff
    exact .sigusr1 hen hc
  | receive p result now =>
    obtain rfl := Option.some.inj heff
    exact .receive hen.1 hen.2.1 hen.2.2
  | exit p =>
    obtain rfl := Option.some.inj heff
    exact .exit hen
  | accept p fd =>
    obtain ⟨v, hv, rfl⟩ := Option.map_eq_some_iff.mp heff
    exact .accept hen.1 hen.2 (StepSystem.exec_eq_some.mpr ⟨trivial, hv⟩)
  | readRequest p result =>
    obtain rfl := Option.some.inj heff
    exact .readRequest hen.1 hen.2
  | join p fd =>
    obtain ⟨v, hv, rfl⟩ := Option.map_eq_some_iff.mp heff
    exact .join hen.1 hen.2.1 (StepSystem.exec_eq_some.mpr ⟨hen.2.2, hv⟩)
  | respond p k =>
    obtain ⟨v, hv, rfl⟩ := Option.map_eq_some_iff.mp heff
    exact .respond hen.1 (StepSystem.exec_eq_some.mpr ⟨hen.2, hv⟩)
  | read p k result =>
    obtain rfl := Option.some.inj heff
    exact .read hen.1 hen.2
  | insert p k now =>
    obtain ⟨v, hv, rfl⟩ := Option.map_eq_some_iff.mp heff
    exact .insert hen.1 (StepSystem.exec_eq_some.mpr ⟨hen.2, hv⟩)
  | depart p k =>
    obtain ⟨v, hv, rfl⟩ := Option.map_eq_some_iff.mp heff
    exact .depart hen.1 (StepSystem.exec_eq_some.mpr ⟨hen.2, hv⟩)
  | pop c =>
    obtain ⟨v, hv, rfl⟩ := Option.map_eq_some_iff.mp heff
    exact .pop (StepSystem.exec_eq_some.mpr ⟨hen, hv⟩)
  | turn c =>
    obtain ⟨v, hv, rfl⟩ := Option.map_eq_some_iff.mp heff
    exact .turn (StepSystem.exec_eq_some.mpr ⟨hen, hv⟩)

/-! ### The chat -/

namespace Chat

variable {ι : Type*} {args : ι → Arguments} {s t : Chat ι nc}

/-- **The invariant of the chat.** -/
structure Inv (args : ι → Arguments) (n : ℕ) (s : Chat ι nc) : Prop where
  server : s.server.Sound n
  linked : ∀ p, Linked (args p) s.server (s.session p)
  /-- Different sessions have different descriptors. -/
  apart : ∀ p q fd, (s.session p).nsfd = some fd → (s.session q).nsfd = some fd → p = q

theorem Initial.inv {input : ι → List UInt8} (h : s.Initial n input) : s.Inv args n where
  server := h.server.sound
  linked p := Linked.of_initial (h.client p) (h.inbound p) (h.request p) (h.message p)
    (h.received p) (h.handled p) (h.nsfd p) (h.handler p) (h.taken p)
  apart p q fd hfd := by simp [h.nsfd p] at hfd

/-- A member has one session. -/
theorem Inv.member_inj (h : s.Inv args n) {p q : ι} {k : ℕ}
    (hp : (s.session p).handler.member? = some k) (hq : (s.session q).handler.member? = some k) :
    p = q := by
  obtain ⟨-, r, hr, hnsfd, -⟩ := (h.linked p).exists_serves hp
  obtain ⟨-, r', hr', hnsfd', -⟩ := (h.linked q).exists_serves hq
  obtain rfl := Option.some.inj (hr.symm.trans hr')
  exact h.apart p q r.nsfd hnsfd hnsfd'

/-- Who has joined is a member, with the group name of its command line. -/
theorem Inv.exists_named (hinv : s.Inv args n) (hshort : ∀ p, (args p).Short) {p : ι} {k : ℕ}
    (hk : (s.session p).handler.member? = some k) :
    ∃ r, s.server.lobby.members[k]? = some r ∧ (s.session p).nsfd = some r.nsfd ∧
      r.groupHandle = (args p).groupName := by
  obtain ⟨-, r, hr, hnsfd, -, hrequest⟩ := (hinv.linked p).exists_serves hk
  have hjoined : ∀ handler, handler.member? = none → (s.session p).handler ≠ handler := by
    rintro handler hnone rfl
    simp [hnone] at hk
  have hcarries := (hinv.linked p).joinRequest_carries (hshort p) (hjoined _ rfl) (hjoined _ rfl)
  exact ⟨r, hr, hnsfd, by rw [Member.groupHandle, hrequest, hcarries.2]⟩

/-- **What a server's move does to the sessions** it is not for. -/
theorem Inv.keeps (h : s.Inv args n) {mv : ServerMove nc} {w : Server nc}
    (hstep : ServerStep n s.server mv w) {q : ι}
    (hfd : ∀ fd, mv.nsfd? = some fd → (s.session q).nsfd ≠ some fd)
    (hk : ∀ k, mv.member? = some k → (s.session q).handler.member? ≠ some k) :
    Linked (args q) w (s.session q) := by
  refine (h.linked q).keep (hstep.keeps (fun fd hq hmv => hfd fd hmv hq)
    (fun k hq hmv => hk k hmv hq) fun k hq => ?_)
  obtain ⟨-, r, hr, -⟩ := (h.linked q).exists_serves hq
  exact (List.getElem?_eq_some_iff.mp hr).1

/-- A consumer goes on. -/
theorem Inv.consume (h : s.Inv args n) {mv : ServerMove nc} {w : Server nc} (hw : w.Sound n)
    (hstep : ServerStep n s.server mv w) (hnsfd : mv.nsfd? = none) (hmember : mv.member? = none) :
    { s with server := w }.Inv args n :=
  ⟨hw, fun q => h.keeps hstep (fun fd hmv => by simp [hnsfd] at hmv) fun k hmv => by
    simp [hmember] at hmv, h.apart⟩

variable [DecidableEq ι]

@[simp] theorem server_put (s : Chat ι nc) (p : ι) (x : Session) : (s.put p x).server = s.server :=
  rfl

theorem session_put (s : Chat ι nc) (p q : ι) (x : Session) :
    (s.put p x).session q = if q = p then x else s.session q := Function.update_apply ..

/-- What does not change in the session that goes on does not change in any session. -/
theorem put_congr {β : Type*} (f : Session → β) {p q : ι} {x : Session}
    (hx : p = q → f x = f (s.session p)) : f ((s.put p x).session q) = f (s.session q) := by
  rw [session_put]
  split_ifs with hq
  · rw [hx hq.symm, hq]
  · rfl

/-- A session goes on by itself. -/
theorem Inv.put (h : s.Inv args n) {p : ι} {x : Session}
    (hx : Linked (args p) s.server x) (hnsfd : x.nsfd = (s.session p).nsfd) :
    (s.put p x).Inv args n := by
  have hsame : ∀ q, ((s.put p x).session q).nsfd = (s.session q).nsfd := fun q =>
    put_congr Session.nsfd fun _ => hnsfd
  refine ⟨h.server, fun q => ?_, fun q q' fd hq hq' => ?_⟩
  · rw [session_put]
    split_ifs with hq
    · subst hq
      exact hx
    · exact h.linked q
  · rw [hsame] at hq hq'
    exact h.apart q q' fd hq hq'

/-- A session goes on with a move of the server that is its own. -/
theorem Inv.serve (h : s.Inv args n) {p : ι} {x : Session} {mv : ServerMove nc} {w : Server nc}
    (hw : w.Sound n) (hstep : ServerStep n s.server mv w)
    (hfd : ∀ fd, mv.nsfd? = some fd → (s.session p).nsfd = some fd)
    (hk : ∀ k, mv.member? = some k → (s.session p).handler.member? = some k)
    (hx : Linked (args p) w x)
    (hnsfd : ∀ q, q ≠ p → ∀ fd, x.nsfd = some fd → (s.session q).nsfd ≠ some fd) :
    ({ s with server := w }.put p x).Inv args n := by
  refine ⟨hw, fun q => ?_, fun q q' fd hq hq' => ?_⟩
  · rw [session_put]
    split_ifs with hq
    · subst hq
      exact hx
    · refine h.keeps hstep (fun fd hmv hcon => hq ?_) fun k hmv hcon => hq ?_
      · exact h.apart q p fd hcon (hfd fd hmv)
      · exact h.member_inj hcon (hk k hmv)
  · simp only [session_put] at hq hq'
    split_ifs at hq hq' with hqp hqp' hqp'
    · rw [hqp, hqp']
    · exact absurd hq' (hnsfd q' hqp' fd hq)
    · exact absurd hq (hnsfd q hqp fd hq')
    · exact h.apart q q' fd hq hq'

/-! ### Whole runs -/

omit [DecidableEq ι] in
/-- What a move is for the server. -/
def serverMoves (s : Chat ι nc) : ChatMove ι nc → List (ServerMove nc)
  | .accept _ fd => [.accept fd]
  | .join p fd => [.join fd (s.session p).joinRequest]
  | .respond _ k => [.respond k]
  | .insert p k now => [.enqueue k (s.session p).inserted now]
  | .depart _ k => [.depart k]
  | .pop c => [.pop c]
  | .turn c => [.turn c]
  | _ => []

end Chat

open Chat

variable {ι : Type*} [DecidableEq ι] {args : ι → Arguments} {s t : Chat ι nc} {m : ChatMove ι nc}

/-- **The server in the chat** is the server. -/
theorem ChatStep.server (h : ChatStep args s m t) :
    (GroupChat.server nc).run s.server (s.serverMoves m) = some t.server := by
  cases h with
  | main | readResponse | sigusr1 | receive | exit | readRequest | read => rfl
  | accept _ _ hv | join _ _ hv | respond _ hv | insert _ hv | depart _ hv | pop hv | turn hv =>
    simp [serverMoves, hv]

/-- **The server's part of a step is proper**: what the server asks of its clients, the
clients do. -/
theorem ChatStep.proper (h : ChatStep args s m t) (hinv : s.Inv args n)
    (hshort : ∀ p, (args p).Short) (hG : s.Orderly m) :
    ∀ mv ∈ s.serverMoves m, s.server.Proper mv := by
  cases h with
  | main | readResponse | sigusr1 | receive | exit | readRequest | read => simp [serverMoves]
  | accept =>
    simp only [serverMoves, List.mem_singleton, forall_eq]
    exact ⟨hG, trivial, trivial, fun _ _ heq => by simp at heq⟩
  | @join p fd v hhandler hnsfd hv =>
    simp only [serverMoves, List.mem_singleton, forall_eq]
    refine ⟨trivial, trivial, trivial, fun fd' request heq => ?_⟩
    obtain ⟨-, rfl⟩ := ServerMove.join.inj heq
    exact ((hinv.linked p).joinRequest_carries (hshort p) (by simp [hhandler])
      (by simp [hhandler])).1
  | @insert p k now v hhandler hv =>
    simp only [serverMoves, List.mem_singleton, forall_eq]
    refine ⟨trivial, trivial, ?_, fun _ _ heq => by simp at heq⟩
    intro r hr
    have hlinked := hinv.linked p
    obtain ⟨-, hbegins⟩ := hlinked.exists_inserted hhandler
    obtain ⟨k', r', hk', hr', -, hhonest⟩ := hlinked.honest_of_mem hinv.server
      (hbegins.subset (List.mem_append_right _ List.mem_cons_self))
    -- the member of the handler is the one that has been answered
    rw [hhandler, Handler.member?, Option.some.injEq] at hk'
    subst hk'
    obtain rfl := Option.some.inj (hr'.symm.trans hr)
    exact hhonest
  | turn =>
    simp only [serverMoves, List.mem_singleton, forall_eq]
    exact ⟨trivial, hG, trivial, fun _ _ heq => by simp at heq⟩
  | respond | depart | pop =>
    simp only [serverMoves, List.mem_singleton, forall_eq]
    exact ⟨trivial, trivial, trivial, fun _ _ heq => by simp at heq⟩

/-- **What a move does to a client**: nothing, a statement of `main`, or the handler of
`SIGUSR1`. -/
theorem ChatStep.client_cases (hstep : ChatStep args s m t) (p : ι) :
    (t.session p).client = (s.session p).client ∨
      (∃ now response, (m = .main p now ∨ (s.session p).client.next = .readResponse ∧
          ∃ result, m = .readResponse p result) ∧
        (s.session p).client.main (args p) now response = some (t.session p).client) ∨
      ∃ now, m = .sigusr1 p now ∧
        (s.session p).client.handleMy now = some (t.session p).client := by
  -- the session that goes on, if its client stays as it is
  have hother : ∀ {q : ι} {x : Session} {v : Server nc}, (q = p → x.client = (s.session q).client) →
      (({ s with server := v }.put q x).session p).client = (s.session p).client := fun hx =>
    put_congr Session.client hx
  cases hstep with
  | @main q now c _ _ hc =>
    by_cases hq : q = p
    · subst hq
      refine Or.inr (Or.inl ⟨now, (s.session q).client.response, Or.inl rfl, ?_⟩)
      rw [Chat.session_put, if_pos rfl]
      exact hc
    · exact Or.inl (hother fun h => absurd h hq)
  | @readResponse q result c _ hnext _ hc =>
    by_cases hq : q = p
    · subst hq
      refine Or.inr (Or.inl ⟨⟨0, 0⟩, (s.session q).response result,
        Or.inr ⟨hnext, result, rfl⟩, ?_⟩)
      rw [Chat.session_put, if_pos rfl]
      exact hc
    · exact Or.inl (hother fun h => absurd h hq)
  | @sigusr1 q now c _ hc =>
    by_cases hq : q = p
    · subst hq
      refine Or.inr (Or.inr ⟨now, rfl, ?_⟩)
      rw [Chat.session_put, if_pos rfl]
      exact hc
    · exact Or.inl (hother fun h => absurd h hq)
  | receive | exit | accept | readRequest | join | respond | read | insert | depart =>
    exact Or.inl (hother fun _ => rfl)
  | pop | turn => exact Or.inl rfl

/-- **Every orderly step keeps the invariant.** -/
theorem ChatStep.inv (h : ChatStep args s m t) (hinv : s.Inv args n)
    (hshort : ∀ p, (args p).Short) (hG : s.Orderly m) : t.Inv args n := by
  have hproper := h.proper hinv hshort hG
  -- the server's part, where there is one
  have hserver : ∀ {mv w}, s.serverMoves m = [mv] →
      (GroupChat.server nc).exec s.server mv = some w →
        w.Sound n ∧ ServerStep n s.server mv w := fun hmv hexec =>
    ⟨hinv.server.step (hproper _ (by rw [hmv]; exact List.mem_singleton_self _)) hexec,
      hinv.server.inv.step hexec⟩
  have hapart : ∀ p q, q ≠ p → ∀ fd, (s.session p).nsfd = some fd →
      (s.session q).nsfd ≠ some fd := fun p q hne fd hp hq => hne (hinv.apart q p fd hq hp)
  cases h with
  | @main p now c hrun hnext hc =>
    exact hinv.put ((hinv.linked p).main (hshort p).name_clean hrun hnext hc) rfl
  | @readResponse p result c hrun hnext hpossible hc =>
    exact hinv.put ((hinv.linked p).readResponse (hshort p).name_clean hrun hnext
      (hinv.server.exists_aligned _) hpossible hG hc) rfl
  | @sigusr1 p now c hrun hc => exact hinv.put ((hinv.linked p).sigusr1 hrun hG hc) rfl
  | @receive p result now hrun hans hpossible =>
    exact hinv.put ((hinv.linked p).receive hans (hinv.server.exists_aligned _) hpossible hG) rfl
  | @exit p hrun => exact hinv.put (hinv.linked p).exit rfl
  | @accept p fd v hnsfd hsd hv =>
    obtain ⟨hw, hstep⟩ := hserver rfl hv
    refine hinv.serve hw hstep (by simp [ServerMove.nsfd?]) (by simp [ServerMove.member?])
      ((hinv.linked p).accept hnsfd hstep) ?_
    rintro q - fd' hfd' hq
    obtain rfl := Option.some.inj hfd'
    exact hG.2 ((hinv.linked q).mem_descriptors hq)
  | @readRequest p result hhandler hpossible =>
    exact hinv.put ((hinv.linked p).readRequest hhandler hpossible hG) rfl
  | @join p fd v hhandler hnsfd hv =>
    obtain ⟨hw, hstep⟩ := hserver rfl hv
    exact hinv.serve hw hstep (by simpa [ServerMove.nsfd?] using hnsfd)
      (by simp [ServerMove.member?])
      ((hinv.linked p).join hinv.server.inv hhandler hnsfd hstep) (hapart p)
  | @respond p k v hhandler hv =>
    obtain ⟨hw, hstep⟩ := hserver rfl hv
    exact hinv.serve hw hstep (by simp [ServerMove.nsfd?])
      (by simp [ServerMove.member?, hhandler, Handler.member?])
      ((hinv.linked p).respond hhandler hstep) (hapart p)
  | @read p k result hhandler hpossible =>
    exact hinv.put ((hinv.linked p).read hhandler hpossible hG) rfl
  | @insert p k now v hhandler hv =>
    obtain ⟨hw, hstep⟩ := hserver rfl hv
    exact hinv.serve hw hstep (by simp [ServerMove.nsfd?])
      (by simp [ServerMove.member?, hhandler, Handler.member?])
      ((hinv.linked p).insert hhandler hstep) (hapart p)
  | @depart p k v hhandler hv =>
    obtain ⟨hw, hstep⟩ := hserver rfl hv
    exact hinv.serve hw hstep (by simp [ServerMove.nsfd?])
      (by simp [ServerMove.member?, hhandler, Handler.member?])
      ((hinv.linked p).depart hhandler hstep) (hapart p)
  | pop hv | turn hv =>
    obtain ⟨hw, hstep⟩ := hserver rfl hv
    exact hinv.consume hw hstep rfl rfl

namespace Chat

variable {ms : List (ChatMove ι nc)}

/-- **The invariant in whole runs.** -/
theorem inv_of_run (hinv : s.Inv args n) (hshort : ∀ p, (args p).Short)
    (hG : (chat nc args).Always Orderly s ms) (hrun : (chat nc args).run s ms = some t) :
    t.Inv args n :=
  StepSystem.run_invariant (fun _ _ _ h hG hexec => (step_of_exec hexec).inv h hshort hG) hinv hG
    hrun

/-- **The server's part of a run** is a run of the server, and every move of it is
proper. -/
theorem exists_server_run (hinv : s.Inv args n) (hshort : ∀ p, (args p).Short)
    (hG : (chat nc args).Always Orderly s ms) (hrun : (chat nc args).run s ms = some t) :
    ∃ mvs, (GroupChat.server nc).run s.server mvs = some t.server ∧
      (GroupChat.server nc).Always Server.Proper s.server mvs := by
  have hfollow : ∀ u m u' v, (u.Inv args n ∧ v = u.server) → u.Orderly m →
      (chat nc args).exec u m = some u' → ∃ mvs w, (GroupChat.server nc).run v mvs = some w ∧
        (GroupChat.server nc).Always Server.Proper v mvs ∧ u'.Inv args n ∧ w = u'.server := by
    rintro u m u' v ⟨hu, rfl⟩ hG hexec
    have hstep := step_of_exec hexec
    refine ⟨u.serverMoves m, u'.server, hstep.server, ?_, hstep.inv hu hshort hG, rfl⟩
    have hproper := hstep.proper hu hshort hG
    -- there is one move at most
    cases m
    all_goals simp only [serverMoves, List.mem_singleton, forall_eq] at hproper ⊢
    all_goals first | trivial | exact ⟨hproper, fun _ _ => trivial⟩
  obtain ⟨mvs, v, hv, hproper, -, rfl⟩ := StepSystem.run_follow hfollow ⟨hinv, rfl⟩ hG hrun
  exact ⟨mvs, hv, hproper⟩

/-- **An invariant of a client** holds of it in the chat. -/
theorem client_of_run {p : ι} {G : Chat ι nc → ChatMove ι nc → Prop} {P : Client → Prop}
    (hinv : s.Inv args n) (hshort : ∀ p, (args p).Short) (hs : P (s.session p).client)
    (hmain : ∀ s m now response c, G s m →
      ((s.session p).client.next ≠ .readResponse → m = .main p now) → (s.session p).client.Wire →
        P (s.session p).client →
          (s.session p).client.main (args p) now response = some c → P c)
    (hhandler : ∀ s now c, G s (.sigusr1 p now) → 8 < (s.session p).client.next.rank →
      (s.session p).client.Wire → P (s.session p).client →
        (s.session p).client.handleMy now = some c → P c)
    (horderly : (chat nc args).Always Orderly s ms) (hG : (chat nc args).Always G s ms)
    (hrun : (chat nc args).run s ms = some t) : P (t.session p).client := by
  induction ms using List.reverseRecOn generalizing t with
  | nil =>
    obtain rfl := Option.some.inj hrun
    exact hs
  | append_singleton ms m ih =>
    obtain ⟨u, hu, hexec⟩ := StepSystem.run_concat_eq_some.mp hrun
    obtain ⟨horderly, hm⟩ := StepSystem.always_concat.mp horderly
    obtain ⟨hG, hGm⟩ := StepSystem.always_concat.mp hG
    have hP := ih horderly hG hu
    have hwire := ((inv_of_run hinv hshort horderly hu).linked p).wire
    rcases (step_of_exec hexec).client_cases p with heq | ⟨now, response, hmove, hc⟩ |
      ⟨now, rfl, hc⟩
    · rwa [heq]
    · refine hmain u m now response _ (hGm u hu) (fun hnext => ?_) hwire hP hc
      exact hmove.resolve_right fun hcon => hnext hcon.1
    · exact hhandler u now _ (hGm u hu) (hm u hu) hwire hP hc

/-! ### Who is who -/

/-- **Identities.** A client that has read its response has the id and the group of a member
that asked for its group name, and signs all its messages with them. Clients are in one
group if they asked for one name, and no two have the same id and group. -/
theorem chat_identities {input : ι → List UInt8} (hs : s.Initial n input)
    (hshort : ∀ p, (args p).Short) (hG : (chat nc args).Always Orderly s ms)
    (hrun : (chat nc args).run s ms = some t) :
    (∀ p, (t.session p).Answered → ∃ r ∈ t.server.lobby.members,
      (t.session p).client.response = response r ∧ r.groupHandle = (args p).groupName ∧
        ∀ x ∈ (t.session p).client.sent, x.2.id = (response r).id ∧
          x.2.groupId = (response r).groupId) ∧
    ∀ p q, (t.session p).Answered → (t.session q).Answered →
      ((t.session p).client.response.groupId = (t.session q).client.response.groupId ↔
        (args p).groupName = (args q).groupName) ∧
      ((t.session p).client.response = (t.session q).client.response → p = q) := by
  have hinv := inv_of_run hs.inv hshort hG hrun
  have hmember : ∀ p, (t.session p).Answered → ∃ k r, (t.session p).handler.member? = some k ∧
      t.server.lobby.members[k]? = some r ∧ (t.session p).client.response = response r ∧
        r.groupHandle = (args p).groupName := by
    intro p hans
    obtain ⟨k, r, hk, hr, -, -, hresponse, -⟩ := (hinv.linked p).exists_member hinv.server hans
    obtain ⟨r', hr', -, hname⟩ := hinv.exists_named hshort hk
    obtain rfl := Option.some.inj (hr.symm.trans hr')
    exact ⟨k, r, hk, hr, hresponse, hname⟩
  refine ⟨fun p hans => ?_, fun p q hp hq => ?_⟩
  · obtain ⟨k, r, -, hr, hresponse, hname⟩ := hmember p hans
    refine ⟨r, List.mem_of_getElem? hr, hresponse, hname, fun x hx => ?_⟩
    have hsigned := (hinv.linked p).identity.sent x hx
    exact ⟨hresponse ▸ hsigned.id, hresponse ▸ hsigned.groupId⟩
  · obtain ⟨j, r, hj, hr, hrp, hnamep⟩ := hmember p hp
    obtain ⟨k, r', hk, hr', hrq, hnameq⟩ := hmember q hq
    have hlt := hinv.server.inv.slots.lt_of_mem (List.mem_of_getElem? hr)
    have hlt' := hinv.server.inv.slots.lt_of_mem (List.mem_of_getElem? hr')
    -- the numbers of a member are small enough for an `int`
    have hint : ∀ {i i' : ℕ}, i < maxGroupSize → i' < maxGroupSize →
        Int32.ofNat i = Int32.ofNat i' → i = i' := by
      intro i i' hi hi' heq
      have htoInt := congrArg Int32.toInt heq
      rwa [Int32.toInt_ofNat_of_lt (hi.trans (by decide)),
        Int32.toInt_ofNat_of_lt (hi'.trans (by decide)), Int.ofNat_inj] at htoInt
    have hgroups := hinv.server.names.registered.sameGroup r (List.mem_of_getElem? hr) r'
      (List.mem_of_getElem? hr')
    have hgroup : (response r).groupId = (response r').groupId ↔ r.groupId = r'.groupId :=
      ⟨hint (hlt.1.trans (by decide)) (hlt'.1.trans (by decide)), congrArg Int32.ofNat⟩
    rw [hrp, hrq]
    refine ⟨by rw [hgroup, hgroups, hnamep, hnameq], fun heq => ?_⟩
    obtain ⟨hid, hg⟩ := JoinResponse.mk.inj heq
    obtain rfl := hinv.server.inv.slots.numbered.index_eq hr hr' (hgroup.mp hg)
      (hint hlt.2 hlt'.2 hid)
    exact hinv.member_inj hj hk

/-- The command lines of two clients, `r` and `s`, who ask for the group `g`. -/
def twoNames : Bool → Arguments
  | false => ⟨[114], [103], .dev⟩
  | true => ⟨[115], [103], .prod⟩

theorem short_twoNames (p : Bool) : (twoNames p).Short := by
  rcases p with _ | _ <;> constructor <;> decide

/-- A name in the memory of a field. -/
def nameField (name : List UInt8) : List UInt8 :=
  name ++ List.replicate (nameSize - name.length) 0

/-- A client comes from line 74 behind line 91, with its handler. -/
def joins {ι : Type*} (args : ι → Arguments) (p : ι) (fd : ℤ) (k : ℕ) : List (ChatMove ι nc) :=
  List.replicate 5 (.main p ⟨0, 0⟩) ++
    [.accept p fd,
      .readRequest p (.data (nameField (args p).groupName ++ nameField (args p).name)),
      .join p fd, .respond p k,
      .readResponse p (.data (joinResponseCodec.encode ⟨Int32.ofNat k, 0⟩))]

/-- Two clients have come to one group, with an identity each. -/
theorem chat_identities_joins :
    ∃ t, (chat 1 twoNames).run (start 1 (newQueue 1) fun _ => [])
        (joins twoNames true 5 0 ++ joins twoNames false 6 1) = some t ∧
      (t.session true).client.response.groupId = (t.session false).client.response.groupId ∧
      (t.session true).client.response ≠ (t.session false).client.response := by
  obtain ⟨t, hrun, hp, hq⟩ : ∃ t, (chat 1 twoNames).run (start 1 (newQueue 1) fun _ => [])
      (joins twoNames true 5 0 ++ joins twoNames false 6 1) = some t ∧ (t.session true).Answered ∧
        (t.session false).Answered :=
    StepSystem.exists_run (by decide +kernel)
  have hboth := (chat_identities
    (initial_start (exists_initQueue_newQueue (by decide)) fun _ => []) short_twoNames
    (by decide +kernel) hrun).2 true false hp hq
  exact ⟨t, hrun, hboth.1.mpr rfl, fun heq => absurd (hboth.2 heq) (by decide)⟩

end Chat

end GroupChat
