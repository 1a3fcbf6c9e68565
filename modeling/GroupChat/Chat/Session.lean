import GroupChat.Chat.Model
import GroupChat.Client.Handles

/-!
# A session

What holds between a client and its handler, under the condition that calls of `read` are
whole (`GroupChat.Linked`). The handler has read the first bytes that the client has
written: the request, then the messages that it has inserted, and one more while it is
in the body of its loop. The client has read the first bytes that the server has
written to it: the response that it goes on with, then the messages that it has handled.

Other sessions touch none of this (`GroupChat.Linked.keep`): what they do to the
server leaves the member, its messages and its place in the queue of handlers alone, and
goes on with streams at their ends (`GroupChat.ServerStep.keeps`).
-/

namespace GroupChat

open ByteLayout CString Framing

/-! ### The client -/

namespace Client

variable {args : Arguments} {s t : Client} {now : Timeval} {response : JoinResponse}

/-- What the client writes stays written, and only line 91 reads a response. -/
theorem main_frame (h : s.main args now response = some t) (hread : s.next ≠ .readResponse) :
    s.stream <+: t.stream ∧ t.response = s.response ∧ (5 < t.next.rank ↔ 5 < s.next.rank) := by
  have hwrite : ∀ sender, s.stream <+: (s.writeMessage sender).stream ∧
      (s.writeMessage sender).response = s.response := by
    intro sender
    unfold writeMessage
    split
    · exact ⟨List.prefix_refl _, rfl⟩
    · exact ⟨List.prefix_refl _, rfl⟩
    · exact ⟨List.prefix_append _ _, rfl⟩
  cases hn : s.next
  all_goals simp only [Client.main, hn] at h
  case readResponse => exact absurd hn hread
  case copyName | copyGroup =>
    obtain ⟨_, -, rfl⟩ := Option.map_eq_some_iff.mp h
    exact ⟨List.prefix_refl _, rfl, by simp [goto]⟩
  case setName =>
    obtain ⟨_, -, rfl⟩ := Option.map_eq_some_iff.mp h
    refine ⟨List.prefix_refl _, rfl, ?_⟩
    rw [next_goto]
    split_ifs <;> simp
  case helloText =>
    obtain ⟨_, htext, rfl⟩ := Option.map_eq_some_iff.mp h
    obtain ⟨_, -, rfl⟩ := setText_cases htext
    exact ⟨List.prefix_refl _, rfl, by simp [goto]⟩
  case fgets =>
    obtain ⟨_, hfgets, rfl⟩ := Option.map_eq_some_iff.mp h
    obtain ⟨-, rfl⟩ | ⟨-, _, -, rfl⟩ := fgets_cases hfgets <;>
      exact ⟨List.prefix_refl _, rfl, by simp [goto]⟩
  case sendHello | send =>
    obtain rfl := Option.some.inj h
    exact ⟨(hwrite _).1, (hwrite _).2, by simp [goto]⟩
  case sendRequest =>
    obtain rfl := Option.some.inj h
    exact ⟨List.prefix_append _ _, rfl, by simp [goto]⟩
  case exited =>
    obtain rfl := Option.some.inj h
    exact ⟨List.prefix_refl _, rfl, by simp [hn]⟩
  all_goals
    obtain rfl := Option.some.inj h
    exact ⟨List.prefix_refl _, rfl, by simp [goto, setTime]⟩

/-- The handler of `SIGUSR1` goes on with the stream. -/
theorem handleMy_frame (h : s.handleMy now = some t) (hsd : s.sd = .connected) :
    s.stream <+: t.stream ∧ t.response = s.response ∧ t.next = s.next ∧ t.request = s.request := by
  obtain ⟨m, -, -, -, -, rfl⟩ := handleMy_cases h hsd
  exact ⟨List.prefix_append _ _, rfl, rfl, rfl⟩

/-- **The request is made from the command line**, by the two copies of lines 86 and 87. -/
structure Introduced (args : Arguments) (s : Client) : Prop where
  copied : s.next = .copyGroup →
    ∃ memory : Vector UInt8 40, strcpy memory 20 (args.name ++ [0]) = some s.request
  request : 3 < s.next.rank → ∃ memory request : Vector UInt8 40,
    strcpy memory 20 (args.name ++ [0]) = some request ∧
      strcpy request 0 (args.groupName ++ [0]) = some s.request

theorem Initial.introduced {input : List UInt8} (h : s.Initial input) : s.Introduced args where
  copied hn := by simp [h.next] at hn
  request hrank := by simp [h.next] at hrank

/-- A statement that leaves the request alone. -/
theorem Introduced.frame (h : s.Introduced args) (hrequest : t.request = s.request)
    (hnext : t.next ≠ .copyGroup) (hrank : 3 < t.next.rank → 3 < s.next.rank) :
    t.Introduced args where
  copied hn := absurd hn hnext
  request ht := hrequest ▸ h.request (hrank ht)

theorem request_writeMessage (s : Client) (sender : Sender) :
    (s.writeMessage sender).request = s.request := by
  unfold writeMessage
  split <;> rfl

theorem Introduced.main (h : s.Introduced args) (hmain : s.main args now response = some t) :
    t.Introduced args := by
  cases hn : s.next
  all_goals simp only [Client.main, hn] at hmain
  case copyName =>
    obtain ⟨request, hcopy, rfl⟩ := Option.map_eq_some_iff.mp hmain
    exact ⟨fun _ => ⟨s.request, hcopy⟩, fun hrank => by simp [goto] at hrank⟩
  case copyGroup =>
    obtain ⟨request, hcopy, rfl⟩ := Option.map_eq_some_iff.mp hmain
    obtain ⟨memory, hmemory⟩ := h.copied hn
    exact ⟨fun hnext => by simp [goto] at hnext, fun _ => ⟨memory, s.request, hmemory, hcopy⟩⟩
  case setName =>
    obtain ⟨_, -, rfl⟩ := Option.map_eq_some_iff.mp hmain
    refine h.frame rfl ?_ fun _ => by simp [hn]
    rw [next_goto]
    split_ifs <;> simp
  case helloText =>
    obtain ⟨_, htext, rfl⟩ := Option.map_eq_some_iff.mp hmain
    obtain ⟨_, -, rfl⟩ := setText_cases htext
    exact h.frame rfl (by simp [goto]) fun _ => by simp [hn]
  case fgets =>
    obtain ⟨_, hfgets, rfl⟩ := Option.map_eq_some_iff.mp hmain
    obtain ⟨-, rfl⟩ | ⟨-, _, -, rfl⟩ := fgets_cases hfgets <;>
      exact h.frame rfl (by simp [goto]) fun _ => by simp [hn]
  case sendHello | send =>
    obtain rfl := Option.some.inj hmain
    exact h.frame (s.request_writeMessage _) (by simp [goto]) fun _ => by simp [hn]
  case exited =>
    obtain rfl := Option.some.inj hmain
    exact h
  all_goals
    obtain rfl := Option.some.inj hmain
    exact h.frame rfl (by simp [goto, setTime]) fun hrank => by
      simp [goto, setTime, hn] at hrank ⊢

end Client

/-- Both handles of the command line are strings that fit their fields. -/
structure Arguments.Short (args : Arguments) : Prop where
  name_clean : (0 : UInt8) ∉ args.name
  groupName_clean : (0 : UInt8) ∉ args.groupName
  name_lt : args.name.length < nameSize
  groupName_lt : args.groupName.length < nameSize

/-- Short handles are in the request that is written. -/
theorem Client.Introduced.carries {args : Arguments} {s : Client} (h : s.Introduced args)
    (hshort : args.Short) (hrank : 3 < s.next.rank) :
    (joinRequestCodec.decode s.request.toList).Terminated ∧
      (joinRequestCodec.decode s.request.toList).groupHandle = args.groupName := by
  obtain ⟨memory, request, hname, hgroup⟩ := h.request hrank
  let e : Entrant :=
    ⟨⟨args.name, args.groupName, hshort.name_clean, hshort.groupName_clean⟩, memory, 0⟩
  have hbytes : e.requestBytes = some s.request := by
    rw [Entrant.requestBytes, hname]
    exact hgroup
  obtain ⟨r, hr⟩ := e.exists_carries ⟨hshort.name_lt, hshort.groupName_lt⟩
  have hdecode := hr.request
  rw [Entrant.request, hbytes] at hdecode
  obtain rfl := Option.some.inj hdecode
  exact ⟨hr.terminated, hr.groupHandle⟩

/-! ### The server's side -/

namespace Server

variable {nc n : ℕ} {s t : Server nc}

/-- The messages inserted for one member. -/
def messagesOf (s : Server nc) (k : ℕ) : List Message :=
  (s.sent.filter fun x => x.1 = k).map Prod.snd

theorem messagesOf_concat (s : Server nc) (q : Queue) (k j : ℕ) (m : Message) :
    { s with messageQueue := q, sent := s.sent ++ [(k, m)] }.messagesOf j =
      s.messagesOf j ++ if k = j then [m] else [] := by
  by_cases h : k = j <;> simp [messagesOf, h]

/-- Nobody has inserted anything for a member that is not there. -/
theorem Inv.messagesOf_eq_nil (h : s.Inv n) {k : ℕ} (hk : s.lobby.members.length ≤ k) :
    s.messagesOf k = [] := by
  rw [messagesOf, List.map_eq_nil_iff, List.filter_eq_nil_iff]
  intro x hx
  have hlt := h.sender x hx
  simp only [decide_eq_true_eq]
  omega

end Server

/-- The descriptor with which a move joins. -/
def ServerMove.nsfd? {nc : ℕ} : ServerMove nc → Option ℤ
  | .join fd _ => some fd
  | _ => none

/-- The member whose handler makes a move. -/
def ServerMove.member? {nc : ℕ} : ServerMove nc → Option ℕ
  | .respond k | .enqueue k _ _ | .depart k => some k
  | _ => none

/-- What a session sees of the server is as it was, with streams that may have gone on. -/
structure Keeps {nc : ℕ} (v w : Server nc) (x : Session) : Prop where
  waiting : ∀ fd, x.nsfd = some fd → fd ∈ v.waiting → fd ∈ w.waiting
  member : ∀ k, x.handler.member? = some k → w.lobby.members[k]? = v.lobby.members[k]?
  messagesOf : ∀ k, x.handler.member? = some k → w.messagesOf k = v.messagesOf k
  stream : ∀ fd, v.stream fd <+: w.stream fd

/-- **The moves of others** keep what a session sees. -/
theorem ServerStep.keeps {nc n : ℕ} {v w : Server nc} {mv : ServerMove nc} {x : Session}
    (hstep : ServerStep n v mv w) (hfd : ∀ fd, x.nsfd = some fd → mv.nsfd? ≠ some fd)
    (hk : ∀ k, x.handler.member? = some k → mv.member? ≠ some k)
    (hlt : ∀ k, x.handler.member? = some k → k < v.lobby.members.length) : Keeps v w x := by
  have hstream := hstep.stream_extends
  -- phases of others are left alone
  have hphase : ∀ k j p, j ≠ k → (v.lobby.setPhase j p)[k]? = v.lobby.members[k]? := by
    intro k j p hne
    simp [Lobby.setPhase, hne]
  cases hstep with
  | accept =>
    exact ⟨fun fd _ hmem => List.mem_append_left _ hmem, fun _ _ => rfl, fun _ _ => rfl, hstream⟩
  | @join fd request l hmem hl =>
    cases hl with
    | join =>
      refine ⟨fun fd' hx hwait => ?_, fun k hx => ?_, fun _ _ => rfl, hstream⟩
      · have hne : fd' ≠ fd := fun heq => hfd fd' hx (congrArg some heq.symm)
        exact (List.mem_erase_of_ne hne).mpr hwait
      · exact List.getElem?_append_left (hlt k hx)
  | @respond j =>
    refine ⟨fun _ _ hmem => hmem, fun k hx => ?_, fun _ _ => rfl, hstream⟩
    exact hphase k j _ fun heq => hk k hx (congrArg some heq)
  | @enqueue j m message now q =>
    refine ⟨fun _ _ hmem => hmem, fun _ _ => rfl, fun k hx => ?_, hstream⟩
    rw [Server.messagesOf_concat, if_neg fun heq => hk k hx (congrArg some heq), List.append_nil]
  | @depart j l hl =>
    cases hl with
    | depart =>
      refine ⟨fun _ _ hmem => hmem, fun k hx => ?_, fun _ _ => rfl, hstream⟩
      exact hphase k j _ fun heq => hk k hx (congrArg some heq)
  | _ => exact ⟨fun _ _ hmem => hmem, fun _ _ => rfl, fun _ _ => rfl, hstream⟩

/-! ### What holds of a session -/

namespace Session

variable {nc : ℕ}

/-- What the handler has read. -/
def consumed (x : Session) (v : Server nc) : List UInt8 :=
  match x.handler with
  | .absent | .readRequest => []
  | .join | .respond _ => x.request
  | .read k | .depart k | .ended k => x.request ++ messageCodec.encodeAll (v.messagesOf k)
  | .insert k => x.request ++ (messageCodec.encodeAll (v.messagesOf k) ++ x.message)

/-- What the client has read. -/
def obtained (x : Session) : List UInt8 :=
  if x.Answered then
    joinResponseCodec.encode x.client.response ++
      messageCodec.encodeAll (x.handled.map Prod.fst)
  else []

theorem obtained_of_answered {x : Session} (h : x.Answered) : x.obtained =
    joinResponseCodec.encode x.client.response ++ messageCodec.encodeAll (x.handled.map Prod.fst) :=
  if_pos h

theorem obtained_of_not_answered {x : Session} (h : ¬x.Answered) : x.obtained = [] := if_neg h

/-- The session is that of member `k`, whose handler has come this far. -/
def Serves (x : Session) (v : Server nc) (k : ℕ) (p : Phase) : Prop :=
  ∃ r, v.lobby.members[k]? = some r ∧ x.nsfd = some r.nsfd ∧ r.phase = p ∧
    r.request = x.joinRequest

/-- The handler is where the server has it. -/
def Placed (x : Session) (v : Server nc) : Prop :=
  match x.handler with
  | .absent => x.nsfd = none
  | .readRequest | .join => ∃ fd, x.nsfd = some fd ∧ fd ∈ v.waiting
  | .respond k => x.Serves v k .joined ∧ v.messagesOf k = []
  | .read k | .insert k | .depart k => x.Serves v k .serving
  | .ended k => x.Serves v k .departed

end Session

/-- **The two ends of a session agree.** -/
structure Linked {nc : ℕ} (args : Arguments) (v : Server nc) (x : Session) : Prop where
  wire : x.client.Wire
  identity : x.client.Identity args
  introduced : x.client.Introduced args
  inbound : x.inbound.length = messageCodec.size
  request : x.request.length = joinRequestCodec.size
  message : x.message.length = messageCodec.size
  placed : x.Placed v
  outward : x.consumed v <+: x.client.stream
  taken : x.taken = (x.consumed v).length
  inward : x.obtained <+: x.stream v
  received : x.received = x.obtained.length
  /-- Nothing has been handled before the response. -/
  unanswered : ¬x.Answered → x.handled = []
  /-- The loop of the handler ends when everything has been inserted. -/
  closed : ∀ k, x.handler = .depart k ∨ x.handler = .ended k →
    x.exited = true ∧ x.consumed v = x.client.stream

section Keeps

variable {nc : ℕ} {v w : Server nc} {x : Session}

theorem Keeps.consumed (h : Keeps v w x) : x.consumed w = x.consumed v := by
  cases hx : x.handler <;> simp only [Session.consumed, hx]
  all_goals rw [h.messagesOf _ (by rw [hx]; rfl)]

theorem Keeps.serves (h : Keeps v w x) {k : ℕ} {p : Phase} (hk : x.handler.member? = some k)
    (hx : x.Serves v k p) : x.Serves w k p := by
  obtain ⟨r, hr, hrest⟩ := hx
  exact ⟨r, by rw [h.member k hk, hr], hrest⟩

theorem Keeps.placed (h : Keeps v w x) (hplaced : x.Placed v) : x.Placed w := by
  cases hx : x.handler
  all_goals simp only [Session.Placed, hx] at hplaced ⊢
  case absent => exact hplaced
  case readRequest | join =>
    obtain ⟨fd, hfd, hmem⟩ := hplaced
    exact ⟨fd, hfd, h.waiting fd hfd hmem⟩
  case respond k =>
    refine ⟨h.serves (by rw [hx]; rfl) hplaced.1, ?_⟩
    rw [h.messagesOf k (by rw [hx]; rfl), hplaced.2]
  all_goals exact h.serves (by rw [hx]; rfl) hplaced

theorem Session.stream_mono (x : Session) (h : ∀ fd, v.stream fd <+: w.stream fd) :
    x.stream v <+: x.stream w := by
  unfold Session.stream
  split
  · exact List.prefix_refl _
  · exact h _

end Keeps

namespace Linked

variable {nc n : ℕ} {args : Arguments} {v w : Server nc} {x : Session}

/-- A session at its start. -/
theorem of_initial {input : List UInt8} (hclient : x.client.Initial input)
    (hinbound : x.inbound.length = messageCodec.size)
    (hrequest : x.request.length = joinRequestCodec.size)
    (hmessage : x.message.length = messageCodec.size) (hreceived : x.received = 0)
    (hhandled : x.handled = []) (hnsfd : x.nsfd = none) (hhandler : x.handler = .absent)
    (htaken : x.taken = 0) : Linked args v x := by
  have hprotocol : x.client.Protocol args input := hclient.protocol
  have hconsumed : x.consumed v = [] := by rw [Session.consumed, hhandler]
  have hobtained : x.obtained = [] :=
    Session.obtained_of_not_answered (by simp [Session.Answered, hclient.next])
  refine ⟨hprotocol.wire, hprotocol.identity, hclient.introduced, hinbound, hrequest, hmessage,
    ?_, ?_, ?_, ?_, ?_, fun _ => hhandled, fun k hk => ?_⟩
  · rw [Session.Placed, hhandler]
    exact hnsfd
  · rw [hconsumed]
    exact List.nil_prefix
  · rw [hconsumed, htaken, List.length_nil]
  · rw [hobtained]
    exact List.nil_prefix
  · rw [hobtained, hreceived, List.length_nil]
  · simp [hhandler] at hk

/-- **What others do** to the server keeps a session as it should be. -/
theorem keep (h : Linked args v x) (hkeeps : Keeps v w x) : Linked args w x := by
  have hconsumed := hkeeps.consumed
  exact ⟨h.wire, h.identity, h.introduced, h.inbound, h.request, h.message,
    hkeeps.placed h.placed, hconsumed ▸ h.outward, hconsumed ▸ h.taken,
    h.inward.trans (x.stream_mono hkeeps.stream), h.received, h.unanswered, hconsumed ▸ h.closed⟩

/-! ### The moves of the client -/

/-- The client goes on, and what it writes is new. -/
theorem advance (h : Linked args v x) {c : Client} (hwire : c.Wire) (hidentity : c.Identity args)
    (hintroduced : c.Introduced args) (hstream : x.client.stream <+: c.stream)
    (hresponse : c.response = x.client.response) (hrank : 5 < c.next.rank ↔ 5 < x.client.next.rank)
    (hrun : x.exited = false) : Linked args v { x with client := c } := by
  have hanswered : { x with client := c }.Answered ↔ x.Answered := hrank
  have hobtained : { x with client := c }.obtained = x.obtained := by
    by_cases hans : x.Answered
    · rw [Session.obtained_of_answered (hanswered.mpr hans), Session.obtained_of_answered hans,
        hresponse]
    · rw [Session.obtained_of_not_answered (mt hanswered.mp hans),
        Session.obtained_of_not_answered hans]
  refine ⟨hwire, hidentity, hintroduced, h.inbound, h.request, h.message, h.placed,
    h.outward.trans hstream, h.taken, hobtained ▸ h.inward, hobtained ▸ h.received,
    fun hans => h.unanswered fun hcon => hans (hrank.mpr hcon), fun k hk => ?_⟩
  -- who runs has not closed its connection
  exact absurd (h.closed k hk).1 (by simp [hrun])

/-- A statement of `main` other than line 91. -/
theorem main (h : Linked args v x) (hname : (0 : UInt8) ∉ args.name) (hrun : x.Running)
    (hread : x.client.next ≠ .readResponse) {now : Timeval} {response : JoinResponse} {c : Client}
    (hmain : x.client.main args now response = some c) : Linked args v { x with client := c } := by
  obtain ⟨hstream, hresponse, hrank⟩ := Client.main_frame hmain hread
  exact h.advance (h.wire.main hmain) (h.identity.main h.wire hname hmain) (h.introduced.main hmain)
    hstream hresponse hrank hrun.1

/-- A signal that comes when the name is set. -/
theorem sigusr1 (h : Linked args v x) (hrun : x.Running) (hrank : 8 < x.client.next.rank)
    {now : Timeval} {c : Client} (hc : x.client.handleMy now = some c) :
    Linked args v { x with client := c } := by
  have hsd := h.wire.connected_of_lt hrank
  obtain ⟨hstream, hresponse, hnext, hrequest⟩ := Client.handleMy_frame hc hsd
  refine h.advance (h.wire.handleMy hrank hc) (h.identity.handleMy h.wire hrank hc)
    (h.introduced.frame hrequest ?_ (by rw [hnext]; exact id)) hstream hresponse (by rw [hnext])
    hrun.1
  rw [hnext]
  intro hcon
  simp [hcon] at hrank

/-- Line 91, by a whole call: the response is what is first on the stream. -/
theorem readResponse (h : Linked args v x) (hname : (0 : UInt8) ∉ args.name) (hrun : x.Running)
    (hnext : x.client.next = .readResponse) (haligned : ∃ j, Server.Aligned j (x.stream v))
    {result : ReadResult}
    (hpossible : result.Possible joinResponseCodec.size (x.incoming v) false)
    (hcount : result.count = joinResponseCodec.size) {c : Client}
    (hmain : x.client.main args ⟨0, 0⟩ (x.response result) = some c) :
    Linked args v { x with client := c, received := x.received + result.bytes.length } := by
  have hnot : ¬x.Answered := by simp [Session.Answered, hnext]
  have hnil := Session.obtained_of_not_answered hnot
  rw [Session.incoming, h.received] at hpossible
  obtain ⟨hlen, hdeposit, hbegins⟩ := hpossible.whole (by decide) hcount
    (joinResponseCodec.length_encode x.client.response) h.inward
  rw [hnil, List.nil_append] at hbegins
  obtain ⟨j, hbytes⟩ : ∃ j, result.bytes = joinResponseCodec.encode j := by
    obtain ⟨j, hempty | ⟨ms, hms⟩⟩ := haligned
    · rw [hempty, List.prefix_nil] at hbegins
      rw [hbegins] at hlen
      exact absurd hlen (by decide)
    · rw [hms] at hbegins
      refine ⟨j, (List.prefix_of_prefix_length_le hbegins (List.prefix_append _ _) ?_).eq_of_length
        ?_⟩
      · rw [hlen, joinResponseCodec.length_encode]
      · rw [hlen, joinResponseCodec.length_encode]
  have hresponse : x.response result = j := by
    rw [Session.response, hdeposit, hbytes, joinResponseCodec.decode_encode]
  have hc : c = { x.client with response := j }.goto .setId := by
    simp only [Client.main, hnext, hresponse] at hmain
    exact (Option.some.inj hmain).symm
  have hobtained : { x with client := c, received := x.received + result.bytes.length }.obtained =
      result.bytes := by
    rw [Session.obtained_of_answered (by rw [hc]; simp [Session.Answered, Client.goto]), hbytes]
    simp [hc, Client.goto, h.unanswered hnot]
  have hstream : c.stream = x.client.stream := by rw [hc]; rfl
  refine ⟨h.wire.main hmain, h.identity.main h.wire hname hmain, h.introduced.main hmain,
    h.inbound, h.request, h.message, h.placed, hstream ▸ h.outward, h.taken, ?_, ?_, ?_,
    fun k hk => ?_⟩
  · rw [hobtained]
    exact hbegins
  · rw [hobtained, h.received, hnil, List.length_nil, Nat.zero_add]
  · intro hans
    exact absurd (by rw [hc]; simp [Session.Answered, Client.goto]) hans
  · exact absurd (h.closed k hk).1 (by simp [hrun.1])

/-- **The receiver**, by a whole call: the message it handles is the next one on the
stream. -/
theorem receive (h : Linked args v x) (hans : x.Answered)
    (haligned : ∃ j, Server.Aligned j (x.stream v)) {result : ReadResult} {now : Timeval}
    (hpossible : result.Possible messageCodec.size (x.incoming v) false)
    (hcount : result.count = messageCodec.size) : Linked args v (x.receive result now) := by
  rw [Session.incoming, h.received] at hpossible
  obtain ⟨hlen, hdeposit, hbegins⟩ := hpossible.whole (by decide) hcount h.inbound h.inward
  have hold := Session.obtained_of_answered hans
  obtain ⟨m, hbytes⟩ : ∃ m, result.bytes = messageCodec.encode m := by
    obtain ⟨j, hempty | ⟨ms, hms⟩⟩ := haligned
    · rw [hempty, List.prefix_nil, List.append_eq_nil_iff] at hbegins
      rw [hbegins.2] at hlen
      exact absurd hlen (by decide)
    · rw [hms, hold, List.append_assoc] at hbegins
      obtain ⟨-, hrest⟩ := RecordCodec.encode_append_prefix hbegins
      obtain ⟨m, hm, -⟩ := RecordCodec.exists_next (by decide) hlen hrest
      exact ⟨m, hm⟩
  have hobtained : (x.receive result now).obtained = x.obtained ++ result.bytes := by
    have hnew : (x.receive result now).Answered := hans
    rw [Session.obtained_of_answered hnew, hold, Session.receive, hdeposit, hbytes]
    simp
  refine ⟨h.wire, h.identity, h.introduced, ?_, h.request, h.message, h.placed, h.outward,
    h.taken, ?_, ?_, fun hcon => absurd hans hcon, h.closed⟩
  · rw [Session.receive, hdeposit, hlen]
  · rw [hobtained]
    exact hbegins
  · rw [hobtained, List.length_append, Session.receive, h.received]

/-- The end of the process. -/
theorem exit (h : Linked args v x) : Linked args v { x with exited := true } :=
  ⟨h.wire, h.identity, h.introduced, h.inbound, h.request, h.message, h.placed, h.outward,
    h.taken, h.inward, h.received, h.unanswered, fun k hk => ⟨rfl, (h.closed k hk).2⟩⟩

/-! ### The moves of the handler -/

/-- A session without a descriptor has no handler. -/
theorem handler_of_nsfd (h : Linked args v x) (hnsfd : x.nsfd = none) : x.handler = .absent := by
  have hplaced := h.placed
  cases hx : x.handler
  all_goals simp only [Session.Placed, hx, Session.Serves, hnsfd] at hplaced
  case absent => rfl
  all_goals simp at hplaced

/-- A connection is accepted. -/
theorem accept (h : Linked args v x) {fd : ℤ} (hnsfd : x.nsfd = none)
    (hstep : ServerStep n v (.accept fd) w) :
    Linked args w { x with nsfd := some fd, handler := .readRequest } := by
  have hhandler := h.handler_of_nsfd hnsfd
  have hnil : x.obtained = [] := by
    have hinward := h.inward
    rwa [Session.stream, hnsfd, List.prefix_nil] at hinward
  have htaken := h.taken
  rw [Session.consumed, hhandler] at htaken
  refine ⟨h.wire, h.identity, h.introduced, h.inbound, h.request, h.message, ?_, List.nil_prefix,
    htaken, ?_, h.received, h.unanswered, fun k hk => by simp at hk⟩
  · cases hstep with
    | accept => exact ⟨fd, rfl, by simp⟩
  · change x.obtained <+: _
    rw [hnil]
    exact List.nil_prefix

/-- A handler goes on to another place without reading anything. -/
theorem shift (h : Linked args v x) {handler : Handler}
    (hplaced : { x with handler := handler }.Placed w)
    (hconsumed : { x with handler := handler }.consumed w = x.consumed v)
    (hstream : ∀ fd, v.stream fd <+: w.stream fd)
    (hclosed : ∀ k, handler = .depart k ∨ handler = .ended k →
      x.exited = true ∧ x.consumed v = x.client.stream) :
    Linked args w { x with handler := handler } :=
  ⟨h.wire, h.identity, h.introduced, h.inbound, h.request, h.message, hplaced,
    hconsumed ▸ h.outward, hconsumed ▸ h.taken, h.inward.trans (x.stream_mono hstream), h.received,
    h.unanswered, fun k hk => hconsumed ▸ hclosed k hk⟩

/-- Line 184, by a whole call. -/
theorem readRequest (h : Linked args v x) (hhandler : x.handler = .readRequest)
    {result : ReadResult}
    (hpossible : result.Possible joinRequestCodec.size x.outgoing x.exited)
    (hcount : result.count = joinRequestCodec.size) :
    Linked args v (x.readRequest result) := by
  have hplaced := h.placed
  have hnil : x.consumed v = [] := by rw [Session.consumed, hhandler]
  rw [Session.outgoing, h.taken] at hpossible
  obtain ⟨hlen, hdeposit, hbegins⟩ := hpossible.whole (by decide) hcount h.request h.outward
  rw [hnil, List.nil_append] at hbegins
  have hconsumed : (x.readRequest result).consumed v = result.bytes := hdeposit
  refine ⟨h.wire, h.identity, h.introduced, h.inbound, ?_, h.message, ?_, ?_, ?_, h.inward,
    h.received, h.unanswered, fun k hk => by simp [Session.readRequest] at hk⟩
  · rw [Session.readRequest, hdeposit, hlen]
  · simp only [Session.Placed, hhandler] at hplaced
    exact hplaced
  · rw [hconsumed]
    exact hbegins
  · rw [hconsumed, Session.readRequest, h.taken, hnil, List.length_nil, Nat.zero_add]

/-- The join section. -/
theorem join (h : Linked args v x) (hinv : v.Inv n) {fd : ℤ} (hhandler : x.handler = .join)
    (hnsfd : x.nsfd = some fd) (hstep : ServerStep n v (.join fd x.joinRequest) w) :
    Linked args w { x with handler := .respond v.lobby.members.length } := by
  refine h.shift ?_ ?_ hstep.stream_extends fun k hk => by simp at hk
  · cases hstep with
    | join hmem hl =>
      cases hl with
      | @join _ _ g id reg =>
        -- the newcomer is the last of the members
        refine ⟨⟨⟨x.joinRequest, fd, g, id, .joined⟩, ?_, hnsfd, rfl, rfl⟩, ?_⟩
        · exact List.getElem?_concat_length
        · exact hinv.messagesOf_eq_nil (Nat.le_refl _)
  · simp only [Session.consumed, hhandler]

/-- The response. -/
theorem respond (h : Linked args v x) {k : ℕ} (hhandler : x.handler = .respond k)
    (hstep : ServerStep n v (.respond k) w) : Linked args w { x with handler := .read k } := by
  have hplaced := h.placed
  simp only [Session.Placed, hhandler] at hplaced
  obtain ⟨⟨r, hr, hnsfd, -, hrequest⟩, hnil⟩ := hplaced
  refine h.shift ?_ ?_ hstep.stream_extends fun j hj => by simp at hj
  · cases hstep with
    | @respond _ m hm hphase =>
      obtain rfl := Option.some.inj (hr.symm.trans hm)
      refine ⟨r.atPhase .serving, ?_, hnsfd, rfl, hrequest⟩
      have hmember := Lobby.getElem?_setPhase (k := k) (p := .serving) hm
      rwa [if_pos rfl] at hmember
  · have hsame : w.messagesOf k = v.messagesOf k := by cases hstep with | respond => rfl
    simp only [Session.consumed, hhandler, hsame, hnil, RecordCodec.encodeAll_nil, List.append_nil]

/-- Line 229, by a whole call, or at the end of the stream. -/
theorem read (h : Linked args v x) {k : ℕ} (hhandler : x.handler = .read k) {result : ReadResult}
    (hpossible : result.Possible messageCodec.size x.outgoing x.exited)
    (hcount : result.count = messageCodec.size ∨ result.count = 0) :
    Linked args v (x.read k result) := by
  have hplaced := h.placed
  simp only [Session.Placed, hhandler] at hplaced
  have hconsumed : x.consumed v = x.request ++ messageCodec.encodeAll (v.messagesOf k) := by
    rw [Session.consumed, hhandler]
  have hjoin : x.Serves v k .serving → (x.read k result).Serves v k .serving := id
  rcases hcount with hwhole | hzero
  · rw [Session.outgoing, h.taken] at hpossible
    obtain ⟨hlen, hdeposit, hbegins⟩ := hpossible.whole (by decide) hwhole h.message h.outward
    have hinsert : (x.read k result).handler = .insert k :=
      if_neg (by rw [hwhole]; decide)
    have hnew : (x.read k result).consumed v = x.consumed v ++ result.bytes := by
      rw [Session.consumed, hinsert, hconsumed, List.append_assoc]
      exact congrArg (fun bytes => _ ++ (_ ++ bytes)) hdeposit
    refine ⟨h.wire, h.identity, h.introduced, h.inbound, h.request, ?_, ?_, ?_, ?_, h.inward,
      h.received, h.unanswered, fun j hj => by simp [hinsert] at hj⟩
    · rw [Session.read, hdeposit, hlen]
    · rw [Session.Placed, hinsert]
      exact hjoin hplaced
    · rw [hnew]
      exact hbegins
    · rw [hnew, List.length_append, Session.read, h.taken]
  · -- the end of the stream: the client has ended, and everything has been read
    have hdepart : (x.read k result).handler = .depart k := if_pos hzero
    cases result with
    | data bytes =>
      have hpos := hpossible.1.1
      rw [ReadResult.count] at hzero
      omega
    | error => simp [ReadResult.count] at hzero
    | eof =>
      obtain ⟨hempty, hexited⟩ := hpossible
      have hnew : (x.read k .eof).consumed v = x.consumed v := by
        rw [Session.consumed, hdepart, hconsumed]
        rfl
      have hall : x.consumed v = x.client.stream := by
        rw [Session.outgoing, h.taken, List.drop_eq_nil_iff] at hempty
        exact h.outward.eq_of_length_le hempty
      refine ⟨h.wire, h.identity, h.introduced, h.inbound, h.request, h.message, ?_, ?_, ?_,
        h.inward, h.received, h.unanswered, fun _ _ => ⟨hexited, hnew.trans hall⟩⟩
      · rw [Session.Placed, hdepart]
        exact hjoin hplaced
      · rw [hnew]
        exact h.outward
      · rw [hnew]
        exact h.taken

/-- What the handler has read begins with the request that the client has written, and goes
on with the messages that it has sent. -/
theorem split (h : Linked args v x) {bytes : List UInt8}
    (hbytes : x.request ++ bytes <+: x.client.stream) :
    4 < x.client.next.rank ∧ x.request = x.client.request.toList ∧
      bytes <+: messageCodec.encodeAll (x.client.sent.map Prod.snd) := by
  have hwire := h.wire.stream
  have hlen := hbytes.length_le
  rw [List.length_append, h.request] at hlen
  by_cases hrank : x.client.next.rank ≤ 4
  · rw [if_pos hrank] at hwire
    rw [hwire, List.length_nil] at hlen
    exact absurd hlen (by simp [joinRequestCodec])
  · rw [if_neg hrank] at hwire
    rw [hwire] at hbytes
    obtain ⟨rest, hrest⟩ := hbytes
    rw [List.append_assoc] at hrest
    obtain ⟨hrequest, hmessages⟩ := List.append_inj hrest
      (by rw [h.request, Vector.length_toList]; rfl)
    exact ⟨Nat.lt_of_not_le hrank, hrequest, rest, hmessages⟩

/-- **The message that is inserted** is the next one that the client has sent. -/
theorem exists_inserted (h : Linked args v x) {k : ℕ} (hhandler : x.handler = .insert k) :
    messageCodec.encode x.inserted = x.message ∧
      v.messagesOf k ++ [x.inserted] <+: x.client.sent.map Prod.snd := by
  have houtward := h.outward
  rw [Session.consumed, hhandler] at houtward
  obtain ⟨-, -, hmessages⟩ := h.split houtward
  obtain ⟨m, hm, hbegins⟩ := RecordCodec.exists_next (by decide) h.message hmessages
  have hinserted : x.inserted = m := by rw [Session.inserted, hm, messageCodec.decode_encode]
  exact ⟨by rw [hinserted, hm], hinserted ▸ hbegins⟩

/-- The insertion. -/
theorem insert (h : Linked args v x) {k : ℕ} {now : Timeval} (hhandler : x.handler = .insert k)
    (hstep : ServerStep n v (.enqueue k x.inserted now) w) :
    Linked args w { x with handler := .read k } := by
  have hplaced := h.placed
  simp only [Session.Placed, hhandler] at hplaced
  obtain ⟨hencode, -⟩ := h.exists_inserted hhandler
  refine h.shift ?_ ?_ hstep.stream_extends fun j hj => by simp at hj
  · cases hstep with
    | enqueue => exact hplaced
  · have hnew : w.messagesOf k = v.messagesOf k ++ [x.inserted] := by
      cases hstep with
      | enqueue => rw [Server.messagesOf_concat, if_pos rfl]
    simp only [Session.consumed, hhandler, hnew, RecordCodec.encodeAll_append,
      RecordCodec.encodeAll_cons, RecordCodec.encodeAll_nil, List.append_nil, hencode]

/-- The departure. -/
theorem depart (h : Linked args v x) {k : ℕ} (hhandler : x.handler = .depart k)
    (hstep : ServerStep n v (.depart k) w) : Linked args w { x with handler := .ended k } := by
  have hplaced := h.placed
  simp only [Session.Placed, hhandler] at hplaced
  obtain ⟨r, hr, hnsfd, -, hrequest⟩ := hplaced
  refine h.shift ?_ ?_ hstep.stream_extends fun _ _ => h.closed k (Or.inl hhandler)
  · cases hstep with
    | depart hl =>
      cases hl with
      | @depart _ m reg hm =>
        obtain rfl := Option.some.inj (hr.symm.trans hm)
        refine ⟨r.atPhase .departed, ?_, hnsfd, rfl, hrequest⟩
        have hmember := Lobby.getElem?_setPhase (k := k) (p := .departed) hm
        rwa [if_pos rfl] at hmember
  · have hsame : w.messagesOf k = v.messagesOf k := by
      cases hstep with
      | depart hl => rfl
    simp only [Session.consumed, hhandler, hsame]

end Linked

end GroupChat
