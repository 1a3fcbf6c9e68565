import GroupChat.Chat.Invariant
import GroupChat.Library.Multicast

/-!
# The chat is a group multicast

Seen from its users the chat is the service of `multicast`: who has joined has entered the
group with the handle of its command line, the messages that a client has sent are what it
has said, those that have been inserted are on the board, and those that the receiver of a
client has handled have been received (`GroupChat.Chat.Refines`). Every step of an
orderly run is matched by moves of the service, so nothing is forged, misdirected or
delivered twice, and as long as no two messages of a group are being delivered side by side
everybody keeps to the order of the board.

Whose message it is that a client handles is not in the message: names need not be
different, and ids go by groups. It is told by the ticket of the letter, which says which
insertion it comes from (`GroupChat.Session.mail`).
-/

namespace GroupChat

open Server Lobby Framing

variable {nc n : ℕ}

namespace Session

/-- The letters that the client has handled. -/
def mail (x : Session) (v : Server nc) : List (ℕ × Message) :=
  match x.nsfd with
  | none => []
  | some fd => (v.letters fd).take x.handled.length

end Session

namespace Linked

variable {args : Arguments} {v w : Server nc} {x : Session}

/-- What has been handled are the first letters. -/
theorem handled_prefix (h : Linked args v x) (hv : v.Sound n) {fd : ℤ} (hfd : x.nsfd = some fd) :
    x.handled.map Prod.fst <+: (v.letters fd).map Prod.snd := by
  by_cases hans : x.Answered
  · obtain ⟨k, r, -, -, hnsfd, -, -, hbegins⟩ := h.exists_member hv hans
    obtain rfl := Option.some.inj (hfd.symm.trans hnsfd)
    exact hbegins
  · rw [h.unanswered hans]
    exact List.nil_prefix

/-- **The mail** is what has been handled, letter by letter. -/
theorem map_mail (h : Linked args v x) (hv : v.Sound n) :
    (x.mail v).map Prod.snd = x.handled.map Prod.fst := by
  cases hfd : x.nsfd with
  | none =>
    have hans : ¬x.Answered := fun hans => by
      obtain ⟨k, r, -, -, hnsfd, -⟩ := h.exists_member hv hans
      simp [hfd] at hnsfd
    simp [Session.mail, hfd, h.unanswered hans]
  | some fd =>
    have htake := List.prefix_iff_eq_take.mp (h.handled_prefix hv hfd)
    rw [List.length_map] at htake
    simp only [Session.mail, hfd]
    rw [List.map_take, ← htake]

theorem length_mail (h : Linked args v x) (hv : v.Sound n) :
    (x.mail v).length = x.handled.length := by
  rw [← List.length_map (f := Prod.snd), h.map_mail hv, List.length_map]

/-- Letters that come later are not in the mail. -/
theorem mail_extend (h : Linked args v x) (hv : v.Sound n)
    (hletters : ∀ fd, v.letters fd <+: w.letters fd) : x.mail w = x.mail v := by
  cases hfd : x.nsfd with
  | none => simp [Session.mail, hfd]
  | some fd =>
    have hle := (h.handled_prefix hv hfd).length_le
    rw [List.length_map, List.length_map] at hle
    obtain ⟨more, hmore⟩ := hletters fd
    simp only [Session.mail, hfd]
    rw [← hmore, List.take_append_of_le_length hle]

end Linked

namespace Chat

variable {ι : Type*} {args : ι → Arguments} {s t : Chat ι nc}
  {a : Multicast ι (List UInt8) Message}

/-- **The chat, seen as the service.** -/
structure Refines (args : ι → Arguments) (s : Chat ι nc) (a : Multicast ι (List UInt8) Message) :
    Prop where
  group : ∀ p, a.group p = (s.session p).handler.member?.map fun _ => (args p).groupName
  outbox : ∀ p, a.outbox p = (s.session p).client.sent.map Prod.snd
  posts : List.Forall₂ (fun x y => (s.session y.1).handler.member? = some x.1 ∧ x.2 = y.2)
    s.server.sent a.posts
  inbox : ∀ p, a.inbox p = ((s.session p).mail s.server).map Prod.fst

theorem Initial.refines {input : ι → List UInt8} (h : s.Initial n input) :
    Refines args s (Multicast.start ι _ _) where
  group p := by simp [Multicast.start, h.handler p, Handler.member?]
  outbox p := by simp [Multicast.start, (h.client p).sent]
  posts := by simp [Multicast.start, h.server.sent]
  inbox p := by simp [Multicast.start, Session.mail, h.nsfd p]

/-- A message that has been inserted is on the board, under its ticket, as one of the
client whose handler has inserted it. -/
theorem Refines.exists_post (h : Refines args s a) {ticket k : ℕ} {m : Message}
    (hsent : s.server.sent[ticket]? = some (k, m)) :
    ∃ p, a.posts[ticket]? = some (p, m) ∧ (s.session p).handler.member? = some k := by
  obtain ⟨hlt, hget⟩ := List.getElem?_eq_some_iff.mp hsent
  have hlt' : ticket < a.posts.length := h.posts.length_eq ▸ hlt
  have hboth := h.posts.get hlt hlt'
  rw [List.get_eq_getElem, List.get_eq_getElem, hget] at hboth
  refine ⟨a.posts[ticket].1, ?_, hboth.1⟩
  rw [List.getElem?_eq_getElem hlt']
  exact congrArg some (Prod.ext rfl hboth.2.symm)

/-- A move of the server changes nobody's mail. -/
theorem Inv.mail_extend (hinv : s.Inv args n) {mv : ServerMove nc} {w : Server nc}
    (hstep : ServerStep n s.server mv w) (q : ι) :
    (s.session q).mail w = (s.session q).mail s.server :=
  (hinv.linked q).mail_extend hinv.server hstep.letters_extend

/-- A consumer goes on. -/
theorem Refines.consume (h : Refines args s a) (hinv : s.Inv args n) {mv : ServerMove nc}
    {w : Server nc} (hstep : ServerStep n s.server mv w) (hsent : w.sent = s.server.sent) :
    Refines args { s with server := w } a :=
  ⟨h.group, h.outbox, hsent ▸ h.posts, fun q => by rw [h.inbox, hinv.mail_extend hstep q]⟩

variable [DecidableEq ι]

/-- Nobody's mail is different when a handler goes on with a move of the server. -/
theorem Inv.mail_put (hinv : s.Inv args n) {p : ι} {x : Session} {mv : ServerMove nc}
    {w : Server nc} (hstep : ServerStep n s.server mv w)
    (hhandled : x.handled = (s.session p).handled) (hnsfd : x.nsfd = (s.session p).nsfd) (q : ι) :
    (({ s with server := w }.put p x).session q).mail w = (s.session q).mail s.server := by
  rw [← hinv.mail_extend hstep q]
  exact put_congr (fun y => y.mail w) fun _ => by simp only [Session.mail, hnsfd, hhandled]

/-- What has been inserted for a member, seen as posts. -/
theorem Inv.filterMap_ofAuthor (hinv : s.Inv args n) {p : ι} {k : ℕ}
    (hk : (s.session p).handler.member? = some k) {xs : List (ℕ × Message)}
    {ys : List (ι × Message)}
    (h : List.Forall₂ (fun x y => (s.session y.1).handler.member? = some x.1 ∧ x.2 = y.2) xs ys) :
    ys.filterMap (Multicast.ofAuthor p) = (xs.filter fun x => x.1 = k).map Prod.snd := by
  induction h with
  | nil => rfl
  | @cons x y xs ys hxy _ ih =>
    have hiff : y.1 = p ↔ x.1 = k := by
      constructor
      · rintro rfl
        exact Option.some.inj (hxy.1.symm.trans hk)
      · rintro rfl
        exact hinv.member_inj hxy.1 hk
    by_cases hy : y.1 = p
    · simp [Multicast.ofAuthor, hy, hiff.mp hy, hxy.2, ih]
    · simp [Multicast.ofAuthor, hy, mt hiff.mpr hy, ih]

/-- What is on the board for a client is what its handler has inserted. -/
theorem Refines.posted (h : Refines args s a) (hinv : s.Inv args n) {p : ι} {k : ℕ}
    (hk : (s.session p).handler.member? = some k) : a.posted p = s.server.messagesOf k :=
  hinv.filterMap_ofAuthor hk h.posts

/-! ### Steps without a move of the service -/

/-- A session goes on, and nothing that the users see has changed. -/
theorem Refines.move (h : Refines args s a) {p : ι} {x : Session} {w : Server nc}
    (hsent : w.sent = s.server.sent) (hmember : x.handler.member? = (s.session p).handler.member?)
    (hclient : x.client.sent = (s.session p).client.sent)
    (hmail : ∀ q, q ≠ p → (s.session q).mail w = (s.session q).mail s.server)
    (hown : x.mail w = (s.session p).mail s.server) :
    Refines args ({ s with server := w }.put p x) a := by
  have hmembers : ∀ q, (({ s with server := w }.put p x).session q).handler.member? =
      (s.session q).handler.member? := fun q =>
    put_congr (fun y => y.handler.member?) fun _ => hmember
  have hsents : ∀ q, (({ s with server := w }.put p x).session q).client.sent =
      (s.session q).client.sent := fun q => put_congr (fun y => y.client.sent) fun _ => hclient
  refine ⟨fun q => ?_, fun q => ?_, ?_, fun q => ?_⟩
  · rw [hmembers, h.group]
  · rw [hsents, h.outbox]
  · refine List.Forall₂.imp (fun x y hxy => ?_) (hsent ▸ h.posts)
    exact ⟨by rw [hmembers, hxy.1], hxy.2⟩
  · rw [session_put, server_put]
    split_ifs with hq
    · rw [hq, hown, ← h.inbox]
    · rw [hmail q hq, ← h.inbox]

/-- A move of the server that inserts nothing. -/
theorem Refines.serve (h : Refines args s a) (hinv : s.Inv args n) {p : ι} {x : Session}
    {mv : ServerMove nc} {w : Server nc} (hstep : ServerStep n s.server mv w)
    (hsent : w.sent = s.server.sent) (hmember : x.handler.member? = (s.session p).handler.member?)
    (hclient : x.client = (s.session p).client) (hhandled : x.handled = (s.session p).handled)
    (hnsfd : x.nsfd = (s.session p).nsfd) : Refines args ({ s with server := w }.put p x) a := by
  refine h.move hsent hmember (by rw [hclient]) (fun q _ => hinv.mail_extend hstep q) ?_
  rw [← hinv.mail_extend hstep p, Session.mail, Session.mail, hnsfd, hhandled]

/-! ### Steps with a move of the service -/

variable {R : ℕ → ℕ → Prop} [DecidableRel R]

/-- **What a client sends, it says.** -/
theorem Refines.say (h : Refines args s a) {p : ι} {x : Session} {more : List Message}
    (hmember : x.handler.member? = (s.session p).handler.member?)
    (hclient : x.client.sent.map Prod.snd = (s.session p).client.sent.map Prod.snd ++ more)
    (hhandled : x.handled = (s.session p).handled) (hnsfd : x.nsfd = (s.session p).nsfd)
    (hjoined : more ≠ [] → x.handler.member?.isSome) :
    ∃ ns b, (multicast R).run a ns = some b ∧ Refines args (s.put p x) b := by
  have hrun : (multicast R).run a (more.map (.say p)) =
      some { a with outbox := Function.update a.outbox p (a.outbox p ++ more) } := by
    by_cases hmore : more = []
    · simp [hmore]
    · refine Multicast.run_say ?_ more
      rw [h.group, ← hmember, Option.isSome_map]
      exact hjoined hmore
  have hmembers : ∀ q, ((s.put p x).session q).handler.member? = (s.session q).handler.member? :=
    fun q => put_congr (fun y => y.handler.member?) fun _ => hmember
  have hmails : ∀ q, ((s.put p x).session q).mail s.server = (s.session q).mail s.server := fun q =>
    put_congr (fun y => y.mail s.server) fun _ => by simp only [Session.mail, hnsfd, hhandled]
  refine ⟨_, _, hrun, fun q => ?_, fun q => ?_, ?_, fun q => ?_⟩
  · rw [hmembers, h.group]
  · rw [session_put]
    by_cases hq : q = p
    · subst hq
      simp [hclient, h.outbox]
    · simp [hq, h.outbox]
  · refine List.Forall₂.imp (fun y z hyz => ?_) h.posts
    exact ⟨by rw [hmembers, hyz.1], hyz.2⟩
  · rw [server_put, hmails, h.inbox]

/-- **Who joins enters a group.** -/
theorem Refines.enter (h : Refines args s a) (hinv : s.Inv args n) {p : ι} {k : ℕ}
    {mv : ServerMove nc} {w : Server nc} (hstep : ServerStep n s.server mv w)
    (hsent : w.sent = s.server.sent) (hnew : (s.session p).handler.member? = none) :
    ∃ ns b, (multicast R).run a ns = some b ∧
      Refines args ({ s with server := w }.put p { s.session p with handler := .respond k }) b := by
  have hrun : (multicast R).run a [.enter p (args p).groupName] =
      some { a with group := Function.update a.group p (some (args p).groupName) } := by
    have hen : (multicast R).enabled a (.enter p (args p).groupName) := by
      simp only [multicast]
      rw [h.group, hnew, Option.map_none]
    rw [StepSystem.run_cons, StepSystem.exec_eq_some.mpr ⟨hen, rfl⟩]
    rfl
  refine ⟨_, _, hrun, fun q => ?_, fun q => ?_, ?_, fun q => ?_⟩
  · rw [session_put]
    by_cases hq : q = p
    · subst hq
      simp [Handler.member?]
    · simp [hq, h.group]
  · rw [h.outbox, session_put]
    split_ifs with hq
    · rw [hq]
    · rfl
  · refine List.Forall₂.imp (fun y z hyz => ⟨?_, hyz.2⟩) (hsent ▸ h.posts)
    rw [session_put, if_neg]
    · exact hyz.1
    · rintro hq
      rw [hq, hnew] at hyz
      simp at hyz
  · rw [h.inbox, ← hinv.mail_put (x := { s.session p with handler := .respond k }) hstep rfl rfl]
    rfl

/-- **What is inserted is posted.** -/
theorem Refines.post (h : Refines args s a) (hinv : s.Inv args n) {p : ι} {k : ℕ} {now : Timeval}
    {w : Server nc} (hhandler : (s.session p).handler = .insert k)
    (hstep : ServerStep n s.server (.enqueue k (s.session p).inserted now) w) :
    ∃ ns b, (multicast R).run a ns = some b ∧
      Refines args ({ s with server := w }.put p { s.session p with handler := .read k }) b := by
  have hk : (s.session p).handler.member? = some k := by rw [hhandler]; rfl
  have hposted := h.posted hinv hk
  obtain ⟨-, rest, hrest⟩ := (hinv.linked p).exists_inserted hhandler
  have hnext : (a.outbox p)[(a.posted p).length]? = some (s.session p).inserted := by
    rw [h.outbox, ← hrest, hposted]
    simp
  have hrun : (multicast R).run a [.post p] =
      some { a with posts := a.posts ++ [(p, (s.session p).inserted)] } := by
    have hen : (multicast R).enabled a (.post p) := (List.getElem?_eq_some_iff.mp hnext).1
    have heff : (multicast R).effect a (.post p) =
        some { a with posts := a.posts ++ [(p, (s.session p).inserted)] } := by
      simp only [multicast, hnext, Option.map_some]
    rw [StepSystem.run_cons, StepSystem.exec_eq_some.mpr ⟨hen, heff⟩]
    rfl
  have hmembers : ∀ q, (({ s with server := w }.put p
      { s.session p with handler := .read k }).session q).handler.member? =
        (s.session q).handler.member? := fun q =>
    put_congr (fun y => y.handler.member?) fun _ => hk.symm
  refine ⟨_, _, hrun, fun q => ?_, fun q => ?_, ?_, fun q => ?_⟩
  · rw [hmembers, h.group]
  · rw [h.outbox, session_put]
    split_ifs with hq
    · rw [hq]
    · rfl
  · have hsent : w.sent = s.server.sent ++ [(k, (s.session p).inserted)] := by
      cases hstep with
      | enqueue => rfl
    rw [server_put, hsent]
    refine List.rel_append ?_ (List.Forall₂.cons ?_ List.Forall₂.nil)
    · refine List.Forall₂.imp (fun y z hyz => ?_) h.posts
      exact ⟨by rw [hmembers, hyz.1], hyz.2⟩
    · exact ⟨by rw [hmembers, hk], rfl⟩
  · rw [h.inbox, ← hinv.mail_put (x := { s.session p with handler := .read k }) hstep rfl rfl]
    rfl

/-! ### Whom a letter is for -/

omit [DecidableEq ι] in
/-- **A letter is for its reader**: it is from another member of the group that its reader
has asked for. -/
theorem Refines.letter (h : Refines args s a) (hinv : s.Inv args n) (hshort : ∀ p, (args p).Short)
    {p : ι} {k : ℕ} {r : Member} (hk : (s.session p).handler.member? = some k)
    (hr : s.server.lobby.members[k]? = some r) {ticket : ℕ} {m : Message}
    (hletter : (ticket, m) ∈ s.server.letters r.nsfd) : a.For p ticket := by
  have hv := hinv.server
  have hwritten := mem_letters.mp hletter
  obtain ⟨-, hmessage⟩ := hv.inv.written _ _ _ hwritten
  obtain ⟨j, r', hr', hnsfd, hgroup, hid⟩ := hv.addressed.directed _ _ _ hwritten
  obtain rfl := hv.distinct.index_eq hr' hr hnsfd
  obtain rfl := Option.some.inj (hr'.symm.trans hr)
  -- the insertion that the letter comes from, and who has made it
  rw [Server.messages, List.getElem?_map, Option.map_eq_some_iff] at hmessage
  obtain ⟨⟨i, m'⟩, hsent, rfl⟩ := hmessage
  obtain ⟨q, hpost, hi⟩ := h.exists_post hsent
  obtain ⟨author, hauthor, -, hq⟩ := hinv.exists_named hshort hi
  obtain ⟨reader, hreader, -, hp⟩ := hinv.exists_named hshort hk
  obtain rfl := Option.some.inj (hreader.symm.trans hr)
  obtain ⟨hauthorId, hauthorGroup⟩ := hv.honest i m' (List.mem_of_getElem? hsent) author hauthor
  have hsame : author.groupId = reader.groupId :=
    Int.ofNat_inj.mp (hauthorGroup.symm.trans hgroup)
  have hnames := (hv.names.registered.sameGroup author (List.mem_of_getElem? hauthor) reader
    (List.mem_of_getElem? hreader)).mp hsame
  refine ⟨by simp [h.group, hk], (q, m'), hpost, ?_, ?_⟩
  · rintro rfl
    obtain rfl := Option.some.inj (hi.symm.trans hk)
    obtain rfl := Option.some.inj (hauthor.symm.trans hreader)
    exact hid hauthorId.symm
  · rw [h.group, h.group, hi, hk, Option.map_some, Option.map_some, ← hq, ← hp, hnames]

/-- **What is handled is received.** -/
theorem Refines.receive (h : Refines args s a) (hinv : s.Inv args n)
    (hshort : ∀ p, (args p).Short) (hR : ∀ fd, (s.server.tickets fd).Pairwise R) {p : ι}
    {result : ReadResult} {now : Timeval} (hans : (s.session p).Answered)
    (hinv' : (s.put p ((s.session p).receive result now)).Inv args n) :
    ∃ ns b, (multicast R).run a ns = some b ∧
      Refines args (s.put p ((s.session p).receive result now)) b := by
  obtain ⟨k, r, hk, hr, hnsfd, -⟩ := (hinv.linked p).exists_member hinv.server hans
  have hlinked := hinv'.linked p
  rw [session_put, if_pos rfl, server_put] at hlinked
  -- there is one letter more than has been handled
  have hlen := (hlinked.handled_prefix hinv.server hnsfd).length_le
  simp only [Session.receive, List.length_map, List.length_append, List.length_singleton] at hlen
  obtain ⟨⟨ticket, m⟩, hletter⟩ : ∃ x, (s.server.letters r.nsfd)[(s.session p).handled.length]? =
      some x := ⟨_, List.getElem?_eq_getElem hlen⟩
  have hmail : ((s.session p).receive result now).mail s.server =
      (s.session p).mail s.server ++ [(ticket, m)] := by
    simp only [Session.mail, Session.receive, hnsfd, List.length_append, List.length_singleton]
    rw [List.take_add_one, hletter, Option.toList_some]
  have hfor := h.letter hinv hshort hk hr (List.mem_of_getElem? hletter)
  have hsorted : ∀ earlier ∈ a.inbox p, R earlier ticket := by
    have htake : (((s.session p).mail s.server ++ [(ticket, m)]).map Prod.fst).Sublist
        (s.server.tickets r.nsfd) := by
      rw [← hmail]
      simp only [Session.mail, Session.receive, hnsfd]
      exact (List.take_sublist _ _).map _
    have hpairwise := (hR r.nsfd).sublist htake
    rw [List.map_append, ← h.inbox] at hpairwise
    exact fun earlier hearlier =>
      (List.pairwise_append.mp hpairwise).2.2 earlier hearlier ticket (List.mem_singleton_self _)
  have hrun : (multicast R).run a [.receive p ticket] =
      some { a with inbox := Function.update a.inbox p (a.inbox p ++ [ticket]) } := by
    have hen : (multicast R).enabled a (.receive p ticket) := ⟨hfor, hsorted⟩
    rw [StepSystem.run_cons, StepSystem.exec_eq_some.mpr ⟨hen, rfl⟩]
    rfl
  have hhandlers : ∀ q, ((s.put p ((s.session p).receive result now)).session q).handler =
      (s.session q).handler := fun q => put_congr Session.handler fun _ => rfl
  have hclients : ∀ q, ((s.put p ((s.session p).receive result now)).session q).client =
      (s.session q).client := fun q => put_congr Session.client fun _ => rfl
  refine ⟨_, _, hrun, fun q => ?_, fun q => ?_, ?_, fun q => ?_⟩
  · rw [hhandlers, h.group]
  · rw [hclients, h.outbox]
  · refine List.Forall₂.imp (fun y z hyz => ?_) h.posts
    exact ⟨by rw [hhandlers, hyz.1], hyz.2⟩
  · rw [session_put, server_put]
    by_cases hq : q = p
    · subst hq
      simp [hmail, h.inbox]
    · simp [hq, h.inbox]

/-! ### Runs -/

/-- **Every orderly step is matched.** -/
theorem Refines.step (h : Refines args s a) (hinv : s.Inv args n) (hshort : ∀ p, (args p).Short)
    (hR : ∀ fd, (s.server.tickets fd).Pairwise R) {m : ChatMove ι nc} (hG : s.Orderly m)
    (hstep : ChatStep args s m t) :
    ∃ ns b, (multicast R).run a ns = some b ∧ Refines args t b := by
  have hinv' := hstep.inv hinv hshort hG
  -- only those that have joined send anything
  have hjoined : ∀ {p : ι} {x : Session} {more : List Message}, Linked (args p) s.server x →
      x.client.sent.map Prod.snd = (s.session p).client.sent.map Prod.snd ++ more →
      more ≠ [] → x.handler.member?.isSome := by
    intro p x more hx hsent hmore
    obtain ⟨m, hm⟩ := List.exists_mem_of_ne_nil more hmore
    obtain ⟨k, r, hk, -⟩ := hx.honest_of_mem hinv.server
      (hsent ▸ List.mem_append_right _ hm)
    rw [hk]
    rfl
  have hown : ∀ {p : ι} {x : Session}, (s.put p x).Inv args n → Linked (args p) s.server x := by
    intro p x hx
    have hlinked := hx.linked p
    rwa [session_put, if_pos rfl] at hlinked
  have hserver : ∀ {mv w}, (GroupChat.server nc).exec s.server mv = some w →
      ServerStep n s.server mv w := hinv.server.inv.step
  cases hstep with
  | main _ _ hc | readResponse _ _ _ hc =>
    obtain ⟨more, hmore, -⟩ := Client.sent_main hc
    have hsent := congrArg (List.map Prod.snd) hmore
    rw [List.map_append] at hsent
    exact h.say rfl hsent rfl rfl (hjoined (hown hinv') hsent)
  | @sigusr1 p now c hrun hc =>
    obtain ⟨m, -, -, -, -, rfl⟩ := Client.handleMy_cases hc
      ((hinv.linked p).wire.connected_of_lt hG)
    have hsent : ((s.session p).client.sent ++ [(Sender.heart, m)]).map Prod.snd =
        (s.session p).client.sent.map Prod.snd ++ [m] := by simp
    exact h.say rfl hsent rfl rfl (hjoined (hown hinv') hsent)
  | receive _ hans => exact h.receive hinv hshort hR hans hinv'
  | exit => exact ⟨[], a, rfl, h.move rfl rfl rfl (fun _ _ => rfl) rfl⟩
  | @accept p fd v hnsfd hsd hv =>
    have hnone : (s.session p).mail s.server = [] := by simp [Session.mail, hnsfd]
    have hhandled := congrArg List.length ((hinv.linked p).map_mail hinv.server)
    rw [hnone, List.map_nil, List.length_nil, List.length_map] at hhandled
    have habsent := (hinv.linked p).handler_of_nsfd hnsfd
    have hsent : v.sent = s.server.sent := by
      cases hserver hv with
      | accept => rfl
    refine ⟨[], a, rfl, h.move hsent (by rw [habsent]; rfl) rfl
      (fun q _ => hinv.mail_extend (hserver hv) q) ?_⟩
    rw [hnone]
    simp [Session.mail, ← hhandled]
  | readRequest hhandler | read hhandler =>
    refine ⟨[], a, rfl, h.move rfl ?_ rfl (fun _ _ => rfl) rfl⟩
    simp only [Session.readRequest, Session.read, hhandler]
    first | rfl | (split_ifs <;> rfl)
  | join hhandler _ hv =>
    have hsent := hserver hv
    cases hsent with
    | join => exact h.enter hinv (hserver hv) rfl (by rw [hhandler]; rfl)
  | insert hhandler hv => exact h.post hinv hhandler (hserver hv)
  | respond hhandler hv | depart hhandler hv =>
    have hsent := hserver hv
    cases hsent
    exact ⟨[], a, rfl, h.serve hinv (hserver hv) rfl (by rw [hhandler]; rfl) rfl rfl rfl⟩
  | pop hv | turn hv =>
    have hsent := hserver hv
    cases hsent
    all_goals exact ⟨[], a, rfl, h.consume hinv (hserver hv) rfl⟩

/-- **Every run is matched**, from any state that is, with inboxes ordered as letters are
under the condition `K` on the steps. -/
theorem Refines.run {J : Chat ι nc → Prop} {K : Chat ι nc → ChatMove ι nc → Prop}
    (h : Refines args s a) (hinv : s.Inv args n) (hstart : J s) (hshort : ∀ p, (args p).Short)
    (hJ : ∀ u m u', u.Inv args n → J u → K u m → ChatStep args u m u' → J u')
    (hR : ∀ u : Chat ι nc, u.Inv args n → J u → ∀ fd, (u.server.tickets fd).Pairwise R)
    {ms : List (ChatMove ι nc)} (hG : (chat nc args).Always Orderly s ms)
    (hK : (chat nc args).Always K s ms) (hrun : (chat nc args).run s ms = some t) :
    ∃ ns b, (multicast R).run a ns = some b ∧ Refines args t b ∧ J t := by
  have hfollow : ∀ u m u' a, (u.Inv args n ∧ J u ∧ Refines args u a) → (u.Orderly m ∧ K u m) →
      (chat nc args).exec u m = some u' → ∃ ns b, (multicast R).run a ns = some b ∧
        (multicast R).Always (fun _ _ => True) a ns ∧
          u'.Inv args n ∧ J u' ∧ Refines args u' b := by
    rintro u m u' a ⟨hu, hJu, ha⟩ ⟨hG, hK⟩ hexec
    have hstep := step_of_exec hexec
    obtain ⟨ns, b, hb, hrefines⟩ := ha.step hu hshort (hR u hu hJu) hG hstep
    exact ⟨ns, b, hb, StepSystem.always_true _ _, hstep.inv hu hshort hG,
      hJ u m u' hu hJu hK hstep, hrefines⟩
  obtain ⟨ns, b, hb, -, -, hend, hrefines⟩ :=
    StepSystem.run_follow hfollow ⟨hinv, hstart, h⟩ (StepSystem.always_and.mpr ⟨hG, hK⟩) hrun
  exact ⟨ns, b, hb, hrefines, hend⟩

/-! ### What is heard -/

omit [DecidableEq ι] in
/-- The message with this ticket has been inserted by the handler of `p`. -/
def From (s : Chat ι nc) (p : ι) (ticket : ℕ) : Prop :=
  ∃ x ∈ s.server.sent[ticket]?, (s.session p).handler.member? = some x.1

omit [DecidableEq ι] in
instance (s : Chat ι nc) (p : ι) (ticket : ℕ) : Decidable (s.From p ticket) :=
  inferInstanceAs (Decidable (∃ x ∈ s.server.sent[ticket]?, _))

omit [DecidableEq ι] in
/-- The messages of `p` that `q` has handled. -/
def heard (s : Chat ι nc) (q p : ι) : List Message :=
  (((s.session q).mail s.server).filter fun x => s.From p x.1).map Prod.snd

omit [DecidableEq ι] in
/-- A letter in the mail is a message that somebody has inserted. -/
theorem Refines.exists_author (h : Refines args s a) (hinv : s.Inv args n) {q : ι}
    {x : ℕ × Message} (hx : x ∈ (s.session q).mail s.server) :
    ∃ p k, a.posts[x.1]? = some (p, x.2) ∧ s.server.sent[x.1]? = some (k, x.2) ∧
      (s.session p).handler.member? = some k := by
  obtain ⟨fd, hletter⟩ : ∃ fd, x ∈ s.server.letters fd := by
    unfold Session.mail at hx
    split at hx
    · simp at hx
    · exact ⟨_, List.mem_of_mem_take hx⟩
  obtain ⟨-, hmessage⟩ := hinv.server.inv.written _ _ _ (mem_letters.mp hletter)
  rw [Server.messages, List.getElem?_map, Option.map_eq_some_iff] at hmessage
  obtain ⟨⟨k, m⟩, hsent, hm⟩ := hmessage
  obtain rfl : m = x.2 := hm
  obtain ⟨p, hpost, hk⟩ := h.exists_post hsent
  exact ⟨p, k, hpost, hsent, hk⟩

/-- What is heard is what has been received. -/
theorem Refines.received (h : Refines args s a) (hinv : s.Inv args n) (q p : ι) :
    a.received q p = s.heard q p := by
  rw [Multicast.received, Multicast.contents, h.inbox, List.filterMap_map, List.filterMap_filterMap,
    heard, ← List.filterMap_eq_map, List.filterMap_filter]
  refine List.filterMap_congr fun x hx => ?_
  obtain ⟨p', k, hpost, hsent, hk⟩ := h.exists_author hinv hx
  have hiff : s.From p x.1 ↔ p' = p := by
    constructor
    · rintro ⟨y, hy, hp⟩
      obtain rfl := Option.some.inj (hsent.symm.trans hy)
      exact hinv.member_inj hk hp
    · rintro rfl
      exact ⟨_, hsent, hk⟩
  simp [hpost, Multicast.ofAuthor, hiff]

/-! ### Whole runs -/

variable {input : ι → List UInt8} {ms : List (ChatMove ι nc)}

/-- With any number of consumers no ticket is handled twice. -/
theorem exists_refines (hs : s.Initial n input) (hshort : ∀ p, (args p).Short)
    (hG : (chat nc args).Always Orderly s ms) (hrun : (chat nc args).run s ms = some t) :
    ∃ ns a, (multicast (· ≠ ·)).run (Multicast.start ι _ _) ns = some a ∧ Refines args t a := by
  obtain ⟨ns, a, ha, hrefines, -⟩ := hs.refines.run (J := fun _ => True) hs.inv trivial hshort
    (fun _ _ _ _ _ _ _ => trivial) (fun _ hu _ => hu.server.addressed.once) hG
    (StepSystem.always_true s ms) hrun
  exact ⟨ns, a, ha, hrefines⟩

/-- While no two messages of a group are being delivered, everybody keeps to the order of the
tickets. -/
theorem Refines.run_inTurn (h : Refines args s a) (hinv : s.Inv args n) (hturn : s.server.InTurn)
    (hshort : ∀ p, (args p).Short) (hG : (chat nc args).Always Orderly s ms)
    (hK : (chat nc args).Always Serial s ms) (hrun : (chat nc args).run s ms = some t) :
    ∃ ns b, (multicast (· < ·)).run a ns = some b ∧ Refines args t b ∧ t.server.InTurn := by
  refine h.run (J := fun u => u.server.InTurn) hinv hturn hshort
    (fun u m u' hu hturn hK hstep => ?_)
    (fun _ hu hturn => hturn.lt_sorted hu.server.addressed) hG hK hrun
  have hv := hu.server
  have hserver : ∀ {mv w}, (GroupChat.server nc).exec u.server mv = some w → u.server.Serial mv →
      w.InTurn := fun hexec hserial =>
    (hv.inv.step hexec).inTurn hturn hv.inv hv.distinct hv.addressed hserial
  cases hstep with
  | main | readResponse | sigusr1 | receive | exit | readRequest | read => exact hturn
  | accept _ _ hw | join _ _ hw | respond _ hw | insert _ hw | depart _ hw | turn hw =>
    exact hserver hw trivial
  | pop hw => exact hserver hw hK

theorem exists_refines_inTurn (hs : s.Initial n input) (hshort : ∀ p, (args p).Short)
    (hG : (chat nc args).Always Orderly s ms) (hK : (chat nc args).Always Serial s ms)
    (hrun : (chat nc args).run s ms = some t) :
    ∃ ns a, (multicast (· < ·)).run (Multicast.start ι _ _) ns = some a ∧ Refines args t a := by
  obtain ⟨ns, a, ha, hrefines, -⟩ :=
    hs.refines.run_inTurn hs.inv hs.server.inTurn hshort hG hK hrun
  exact ⟨ns, a, ha, hrefines⟩

/-- The hello of the client `s`. -/
def helloFrom : List UInt8 :=
  List.replicate 24 0 ++ (115 :: List.replicate 19 0) ++ (helloText ++ List.replicate 186 0)

/-- Both clients join, and one of them says hello. -/
def helloSent : List (ChatMove Bool nc) :=
  joins twoNames true 5 0 ++ joins twoNames false 6 1 ++ List.replicate 6 (.main true ⟨0, 0⟩)

/-- The hello is inserted, a consumer removes it, and it comes to the other client. -/
def helloPasses (c : Fin nc) : List (ChatMove Bool nc) :=
  [.read true 0 (.data helloFrom), .insert true 0 ⟨0, 0⟩, .pop c, .turn c, .turn c, .turn c,
    .receive false (.data helloFrom) ⟨0, 3⟩]

omit [DecidableRel R] in
/-- A letter in the mail is a message that another client with the same group name has
sent. -/
theorem Refines.exists_sender (h : Refines args s a) (ha : a.Inv R) (hinv : s.Inv args n) {q : ι}
    {x : ℕ × Message} (hx : x ∈ (s.session q).mail s.server) :
    ∃ p, p ≠ q ∧ (args p).groupName = (args q).groupName ∧ s.From p x.1 ∧
      x.2 ∈ (s.session p).client.sent.map Prod.snd := by
  obtain ⟨p, k, hpost, hsent, hk⟩ := h.exists_author hinv hx
  have hmem : x.1 ∈ a.inbox q := by
    rw [h.inbox]
    exact List.mem_map_of_mem hx
  obtain ⟨hsome, y, hy, hne, hgroup⟩ := ha.addressed q x.1 hmem
  obtain rfl := Option.some.inj (hpost.symm.trans hy)
  refine ⟨p, hne, ?_, ⟨_, hsent, hk⟩, ?_⟩
  · obtain ⟨g, hg⟩ := Option.isSome_iff_exists.mp hsome
    rw [hg, h.group] at hgroup
    rw [h.group] at hg
    obtain ⟨-, -, hq⟩ := Option.map_eq_some_iff.mp hg
    obtain ⟨-, -, hp⟩ := Option.map_eq_some_iff.mp hgroup
    exact hp.trans hq.symm
  · have hposted : x.2 ∈ a.posted p :=
      List.mem_filterMap.mpr ⟨(p, x.2), List.mem_of_getElem? hpost, if_pos rfl⟩
    rw [← h.outbox]
    exact (ha.posted p).subset hposted

/-- What a client has handled has been sent by another member of its group. -/
theorem exists_sent_of_handled (hs : s.Initial n input) (hshort : ∀ p, (args p).Short)
    (hG : (chat nc args).Always Orderly s ms) (hrun : (chat nc args).run s ms = some t) {q : ι}
    {y : Message × Timeval} (hy : y ∈ (t.session q).handled) :
    ∃ p, p ≠ q ∧ (args p).groupName = (args q).groupName ∧
      y.1 ∈ (t.session p).client.sent.map Prod.snd := by
  have hinv := inv_of_run hs.inv hshort hG hrun
  obtain ⟨ns, a, ha, hrefines⟩ := exists_refines hs hshort hG hrun
  have hmail : y.1 ∈ ((t.session q).mail t.server).map Prod.snd := by
    rw [(hinv.linked q).map_mail hinv.server]
    exact List.mem_map_of_mem hy
  obtain ⟨x, hx, hmessage⟩ := List.mem_map.mp hmail
  obtain ⟨p, hne, hgroup, -, hsent⟩ :=
    hrefines.exists_sender (Multicast.inv_of_run Multicast.inv_start ha) hinv hx
  exact ⟨p, hne, hgroup, hmessage ▸ hsent⟩

/-- No message is heard twice. -/
theorem heard_subperm (hs : s.Initial n input) (hshort : ∀ p, (args p).Short)
    (hG : (chat nc args).Always Orderly s ms) (hrun : (chat nc args).run s ms = some t) (q p : ι) :
    (t.heard q p).Subperm ((t.session p).client.sent.map Prod.snd) := by
  obtain ⟨ns, a, ha, hrefines⟩ := exists_refines hs hshort hG hrun
  rw [← hrefines.received (inv_of_run hs.inv hshort hG hrun), ← hrefines.outbox]
  exact (Multicast.inv_of_run Multicast.inv_start ha).received_subperm q p

/-- While no two messages of a group are being delivered, messages are heard in the order in
which they were sent. -/
theorem heard_sublist (hs : s.Initial n input) (hshort : ∀ p, (args p).Short)
    (hG : (chat nc args).Always Orderly s ms) (hK : (chat nc args).Always Serial s ms)
    (hrun : (chat nc args).run s ms = some t) (q p : ι) :
    (t.heard q p).Sublist ((t.session p).client.sent.map Prod.snd) := by
  obtain ⟨ns, a, ha, hrefines⟩ := exists_refines_inTurn hs hshort hG hK hrun
  rw [← hrefines.received (inv_of_run hs.inv hshort hG hrun), ← hrefines.outbox]
  exact (Multicast.inv_of_run Multicast.inv_start ha).received_sublist q p

/-- **What a client hears.** Everything that a client handles is a message that another
client with the same group name has sent, under the name of this client; no message is
heard twice, and messages come in the order in which they were sent, as long as no two of a
group are being delivered side by side. -/
theorem chat_faithful (hs : s.Initial n input) (hshort : ∀ p, (args p).Short)
    (hG : (chat nc args).Always Orderly s ms) (hrun : (chat nc args).run s ms = some t) :
    (∀ q, ((t.session q).mail t.server).map Prod.snd = (t.session q).handled.map Prod.fst ∧
      ∀ x ∈ (t.session q).mail t.server, ∃ p, p ≠ q ∧ (args p).groupName = (args q).groupName ∧
        t.From p x.1 ∧ CString.read x.2.name.toList = some (args p).name) ∧
    (∀ q p, (t.heard q p).Subperm ((t.session p).client.sent.map Prod.snd)) ∧
    ((chat nc args).Always Serial s ms →
      ∀ q p, (t.heard q p).Sublist ((t.session p).client.sent.map Prod.snd)) := by
  have hinv := inv_of_run hs.inv hshort hG hrun
  obtain ⟨ns, a, ha, hrefines⟩ := exists_refines hs hshort hG hrun
  refine ⟨fun q => ⟨(hinv.linked q).map_mail hinv.server, fun x hx => ?_⟩, ?_, fun hK => ?_⟩
  · obtain ⟨p, hne, hgroup, hfrom, hsent⟩ :=
      hrefines.exists_sender (Multicast.inv_of_run Multicast.inv_start ha) hinv hx
    obtain ⟨y, hy, hmessage⟩ := List.mem_map.mp hsent
    rw [← hmessage]
    exact ⟨p, hne, hgroup, hfrom, ((hinv.linked p).identity.sent y hy).name⟩
  · exact heard_subperm hs hshort hG hrun
  · exact heard_sublist hs hshort hG hK hrun

/-- The hello is heard. -/
theorem chat_faithful_hello :
    ∃ t, (chat consumerThreadCount twoNames).run
        (start consumerThreadCount (newQueue 1) fun _ => []) (helloSent ++ helloPasses 0) = some t ∧
      (t.heard false true).length = 1 ∧
      (t.heard false true).Sublist ((t.session true).client.sent.map Prod.snd) := by
  obtain ⟨t, hrun, hlen⟩ : ∃ t, (chat consumerThreadCount twoNames).run
      (start consumerThreadCount (newQueue 1) fun _ => []) (helloSent ++ helloPasses 0) = some t ∧
        (t.heard false true).length = 1 :=
    StepSystem.exists_run (by decide +kernel)
  have hfaithful := chat_faithful
    (initial_start (exists_initQueue_newQueue (by decide)) fun _ => []) short_twoNames
    (by decide +kernel) hrun
  exact ⟨t, hrun, hlen, hfaithful.2.2 (by decide +kernel) false true⟩

end Chat

end GroupChat
