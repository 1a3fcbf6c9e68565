import GroupChat.Chat.Delivery

/-!
# What is shown

Line 171 of `client.c`: the receiver prints the name and the text of every message that it
handles, unless in `TEST` mode. Both are read as strings from the fields of the message, and
both end there.

| whose | text |
|---|---|
| of line 113 | the hello, unless in `TEST` mode |
| of line 120 | a line of standard input |
| of line 155 | the heart |

These are all the texts there are: whenever the handler of `SIGUSR1` comes between two
statements of `main`, what is in the buffer is one of them (`GroupChat.Client.Speaks`). So
everything that is shown is a text of another member of the group behind the name of this
member (`GroupChat.Chat.chat_screen`). Where the handler does not interfere, and the loop of
`main` does not write a line twice, a reader that was there from the beginning, and is not in
`TEST` mode, is shown the hello and every line of the input, in their order
(`GroupChat.Chat.chat_recital`).
-/

namespace GroupChat

open Server CString Client CInt

/-- Line 171: `printf("%s: %s", message.name, message.message)`. -/
def Message.shown (m : Message) : Option (List UInt8) := do
  let name ← read m.name.toList
  let text ← read m.message.toList
  some (name ++ [58, 32] ++ text)

/-- A NUL behind a text changes nothing. -/
theorem text_concat_zero (txt : List UInt8) : text (txt ++ [0]) = text txt := by
  simp only [text, List.takeWhile_append]
  split_ifs with h
  · simpa using ((List.takeWhile_prefix _).eq_of_length h).symm
  · rfl

/-- A text is read up to its first NUL. -/
theorem Message.Holds.read {m : Message} {txt : List UInt8} (h : m.Holds txt) :
    CString.read m.message.toList = some (text txt) := by
  have hmem : (0 : UInt8) ∈ txt ++ [0] := by simp
  rw [← List.take_append_drop (txt.length + 1) m.message.toList, h, read_append_of_mem hmem,
    text_concat_zero]

/-- What is shown of a message with this name and this text. -/
theorem Message.shown_of_holds {m : Message} {name txt : List UInt8}
    (hname : CString.read m.name.toList = some name) (h : m.Holds txt) :
    m.shown = some (name ++ [58, 32] ++ text txt) := by
  simp [Message.shown, hname, h.read]

namespace Client

variable {args : Arguments} {input : List UInt8} {s t : Client} {now : Timeval}
  {response : JoinResponse}

/-! ### The texts of a client -/

/-- The texts that a client with these lines has for its messages. In `TEST` mode the first
may come from a buffer that nothing has been stored in. -/
def utterances (args : Arguments) (lines : List (List UInt8)) : List (List UInt8) :=
  heartText :: (if args.mode = .test then [] else GroupChat.helloText) :: lines

/-- **The buffer holds one of the texts**, from line 113 on, and so do the messages sent. -/
structure Speaks (args : Arguments) (s : Client) : Prop where
  buffer : ∃ txt, s.message.Holds txt ∧
    (txt ∈ utterances args s.lines ∨ s.next.rank ≤ 9 ∧ txt = [])
  hello : 8 < s.next.rank → s.next.rank ≤ 11 → args.mode ≠ .test
  sent : ∀ x ∈ s.sent, ∃ txt ∈ utterances args s.lines, x.2.Holds txt

theorem Initial.speaks (h : s.Initial input) : s.Speaks args where
  buffer := by
    refine ⟨[], ?_, Or.inr ⟨by simp [h.next], rfl⟩⟩
    rw [h.message]
    decide
  hello hlt := by simp [h.next] at hlt
  sent := by simp [h.sent]

/-- A statement that leaves the buffer alone, and may write it. -/
theorem Speaks.frame (h : s.Speaks args) (hmessage : t.message.message = s.message.message)
    (hlines : t.lines = s.lines)
    (hsent : ∀ x ∈ t.sent, x ∈ s.sent ∨ x.2 = s.message ∧ 9 < s.next.rank)
    (hrank : s.next.rank ≤ 9 → t.next.rank ≤ 9 ∨ args.mode = .test)
    (hhello : 8 < t.next.rank → t.next.rank ≤ 11 → args.mode ≠ .test) : t.Speaks args where
  buffer := by
    obtain ⟨txt, hholds, htxt⟩ := h.buffer
    refine ⟨txt, by rwa [Message.Holds, hmessage], ?_⟩
    rw [hlines]
    rcases htxt with htxt | ⟨hle, rfl⟩
    · exact Or.inl htxt
    · rcases hrank hle with hle | hmode
      · exact Or.inr ⟨hle, rfl⟩
      · exact Or.inl (by simp [utterances, hmode])
  hello := hhello
  sent x hx := by
    rw [hlines]
    rcases hsent x hx with hx | ⟨hx, hlt⟩
    · exact h.sent x hx
    · obtain ⟨txt, hholds, htxt⟩ := h.buffer
      rw [hx]
      exact ⟨txt, htxt.resolve_right fun hcon => absurd hcon.1 (by omega), hholds⟩

/-- **Every statement of `main`** keeps to the texts. -/
theorem Speaks.main (h : s.Speaks args) (hwire : s.Wire)
    (hmain : s.main args now response = some t) : t.Speaks args := by
  have hframe := @h.frame args s t
  have hhello := h.hello
  cases hn : s.next
  all_goals
    simp only [Client.main, hn] at hmain
    simp only [hn, ClientStatement.rank] at hframe hhello
  case copyName | copyGroup =>
    obtain ⟨_, -, rfl⟩ := Option.map_eq_some_iff.mp hmain
    exact hframe rfl rfl (fun _ => Or.inl) (fun _ => Or.inl (by simp)) (by simp)
  case setName =>
    obtain ⟨_, -, rfl⟩ := Option.map_eq_some_iff.mp hmain
    by_cases hmode : args.mode = .test
    · exact hframe rfl rfl (fun _ => Or.inl) (fun _ => Or.inr hmode) (by simp [hmode])
    · exact hframe rfl rfl (fun _ => Or.inl) (fun _ => Or.inl (by simp [hmode])) fun _ _ => hmode
  case helloText =>
    obtain ⟨_, htext, rfl⟩ := Option.map_eq_some_iff.mp hmain
    obtain ⟨_, hput, rfl⟩ := setText_cases htext
    have hmode := hhello (by omega) (by omega)
    refine ⟨⟨GroupChat.helloText, take_of_put hput, Or.inl ?_⟩, fun _ _ => hmode, h.sent⟩
    simp [utterances, hmode]
  case sendHello | send =>
    obtain rfl := Option.some.inj hmain
    have hsd : s.sd = .connected := hwire.connected_of_lt (by simp [hn])
    simp only [Client.writeMessage, hsd, Client.goto]
    refine h.frame rfl rfl (fun x hx => ?_) (by simp [hn]) (by simp)
    rcases List.mem_append.mp hx with hx | hx
    · exact Or.inl hx
    · exact Or.inr ⟨by rw [List.mem_singleton.mp hx], by simp [hn]⟩
  case fgets =>
    obtain ⟨_, hfgets, rfl⟩ := Option.map_eq_some_iff.mp hmain
    obtain ⟨-, rfl⟩ | ⟨-, _, hput, rfl⟩ := fgets_cases hfgets
    · exact hframe rfl rfl (fun _ => Or.inl) (by omega) (by simp)
    · -- there is one line more to say
      have hmore : ∀ txt ∈ utterances args s.lines,
          txt ∈ utterances args (s.lines ++ [(takeLine s.stdin).1]) := by
        intro txt htxt
        simp only [utterances, List.mem_cons, List.mem_append] at htxt ⊢
        tauto
      refine ⟨⟨_, take_of_put hput, Or.inl ?_⟩, by simp, fun x hx => ?_⟩
      · simp [utterances, Client.goto]
      · obtain ⟨txt, htxt, hholds⟩ := h.sent x hx
        exact ⟨txt, hmore txt htxt, hholds⟩
  case exited =>
    obtain rfl := Option.some.inj hmain
    exact h
  case helloTime =>
    obtain rfl := Option.some.inj hmain
    exact hframe rfl rfl (fun _ => Or.inl) (by omega) fun _ _ => hhello (by omega) (by omega)
  all_goals
    obtain rfl := Option.some.inj hmain
    exact hframe rfl rfl (fun _ => Or.inl) (by simp) (by simp)

/-- **The handler** says its own text, whatever was in the buffer. -/
theorem Speaks.handleMy (h : s.Speaks args) (hwire : s.Wire) (hrank : 8 < s.next.rank)
    (ht : s.handleMy now = some t) : t.Speaks args := by
  obtain ⟨m, hholds, -, -, -, rfl⟩ := handleMy_cases ht (hwire.connected_of_lt hrank)
  have hmem : heartText ∈ utterances args s.lines := List.mem_cons_self
  refine ⟨⟨_, hholds, Or.inl hmem⟩, h.hello, fun x hx => ?_⟩
  rcases List.mem_append.mp hx with hx | hx
  · exact h.sent x hx
  · rw [List.mem_singleton.mp hx]
    exact ⟨_, hmem, hholds⟩

end Client

namespace Chat

variable {ι : Type*} [DecidableEq ι] {nc n : ℕ} {args : ι → Arguments} {s t u : Chat ι nc}
  {input : ι → List UInt8} {ms pre post : List (ChatMove ι nc)}

/-- The condition on a step: the client is not signalled, and its loop does not write without
a line. -/
def Undisturbed (p : ι) (s : Chat ι nc) : ChatMove ι nc → Prop
  | .main q _ => q = p → (s.session p).client.next = .send →
      (s.session p).client.loopMessages.length < (s.session p).client.lines.length
  | .sigusr1 q _ => q ≠ p
  | _ => True

instance (p : ι) (s : Chat ι nc) : (m : ChatMove ι nc) → Decidable (Undisturbed p s m)
  | .main q _ => inferInstanceAs (Decidable (q = p → _ → _ < _))
  | .sigusr1 q _ => inferInstanceAs (Decidable (q ≠ p))
  | .readResponse _ _ | .receive _ _ _ | .exit _ | .accept _ _ | .readRequest _ _ | .join _ _
    | .respond _ _ | .read _ _ _ | .insert _ _ _ | .depart _ _ | .pop _ | .turn _ => isTrue trivial

/-- A client says nothing but its texts, whatever the signals do. -/
theorem speaks_of_run (hs : s.Initial n input) (hshort : ∀ p, (args p).Short)
    (hG : (chat nc args).Always Orderly s ms) (hrun : (chat nc args).run s ms = some t) (p : ι) :
    (t.session p).client.Speaks (args p) ∧
      inputLines (input p) =
        (t.session p).client.lines ++ inputLines (t.session p).client.stdin := by
  refine client_of_run (P := fun c => c.Speaks (args p) ∧
    inputLines (input p) = c.lines ++ inputLines c.stdin) (G := fun _ _ => True) hs.inv hshort
      ⟨(hs.client p).speaks, ?_⟩ (fun u m now response c _ _ hwire hc hmain => ?_)
      (fun u now c _ hrank hwire hc hhandler => ?_) hG (StepSystem.always_true _ _) hrun
  · rw [(hs.client p).lines, (hs.client p).stdin, List.nil_append]
  · exact ⟨hc.1.main hwire hmain, accounted_main hc.2 hmain⟩
  · refine ⟨hc.1.handleMy hwire hrank hhandler, ?_⟩
    obtain ⟨m, -, -, -, -, rfl⟩ := handleMy_cases hhandler (hwire.connected_of_lt hrank)
    exact hc.2

/-- A client that is not disturbed says what it has to say, and sends no hearts. -/
theorem progress_of_run (hs : s.Initial n input) (hshort : ∀ p, (args p).Short)
    (hG : (chat nc args).Always Orderly s ms) {p : ι}
    (hkeeps : (chat nc args).Always (Undisturbed p) s ms)
    (hrun : (chat nc args).run s ms = some t) :
    (t.session p).client.Progress (args p) ∧ ∀ x ∈ (t.session p).client.sent, x.1 ≠ .heart := by
  refine client_of_run (P := fun c => c.Progress (args p) ∧ ∀ x ∈ c.sent, x.1 ≠ .heart)
    (G := Undisturbed p) hs.inv hshort ⟨(hs.client p).protocol.progress, ?_⟩
      (fun u m now response c hkeeps hmove hwire hc hmain => ?_)
      (fun u now c hkeeps _ _ _ _ => absurd rfl hkeeps) hG hkeeps hrun
  · simp [(hs.client p).sent]
  · obtain ⟨more, hsent, hmore⟩ := sent_main hmain
    have hline : HasLine (u.session p).client (.main now response) := by
      intro hsend
      obtain rfl := hmove (by simp [hsend])
      exact hkeeps rfl hsend
    refine ⟨hc.1.main hwire hline hmain, fun x hx => ?_⟩
    rw [hsent, List.mem_append] at hx
    exact hx.elim (hc.2 x) (hmore x)

/-! ### The screen -/

end Chat

/-- What the receiver has printed, message by message. -/
def Session.screen (args : Arguments) (x : Session) : Option (List (List UInt8)) :=
  if args.mode = .test then some [] else x.handled.mapM fun y => y.1.shown

namespace Chat

variable {ι : Type*} [DecidableEq ι] {nc n : ℕ} {args : ι → Arguments} {s t u : Chat ι nc}
  {input : ι → List UInt8} {ms pre post : List (ChatMove ι nc)}

/-- A message with a text of the client is shown behind its name. -/
theorem shown_of_mem_sent (hs : s.Initial n input) (hshort : ∀ p, (args p).Short)
    (hG : (chat nc args).Always Orderly s ms) (hrun : (chat nc args).run s ms = some t) {p : ι}
    {m : Message} (hm : m ∈ (t.session p).client.sent.map Prod.snd) :
    ∃ txt ∈ utterances (args p) (inputLines (input p)),
      m.shown = some ((args p).name ++ [58, 32] ++ text txt) := by
  obtain ⟨x, hx, rfl⟩ := List.mem_map.mp hm
  obtain ⟨hspeaks, hlines⟩ := speaks_of_run hs hshort hG hrun p
  obtain ⟨txt, htxt, hholds⟩ := hspeaks.sent x hx
  have hname := (((inv_of_run hs.inv hshort hG hrun).linked p).identity.sent x hx).name
  refine ⟨txt, ?_, Message.shown_of_holds hname hholds⟩
  rw [hlines]
  simp only [utterances, List.mem_cons, List.mem_append] at htxt ⊢
  tauto

/-- What has been handled can be shown, and it is a text of another member of the group. -/
theorem exists_shown_of_handled (hs : s.Initial n input) (hshort : ∀ p, (args p).Short)
    (hG : (chat nc args).Always Orderly s ms) (hrun : (chat nc args).run s ms = some t) {q : ι}
    {y : Message × Timeval} (hy : y ∈ (t.session q).handled) :
    ∃ p, p ≠ q ∧ (args p).groupName = (args q).groupName ∧
      ∃ txt ∈ utterances (args p) (inputLines (input p)),
        y.1.shown = some ((args p).name ++ [58, 32] ++ text txt) := by
  obtain ⟨p, hne, hgroup, hsent⟩ := exists_sent_of_handled hs hshort hG hrun hy
  exact ⟨p, hne, hgroup, shown_of_mem_sent hs hshort hG hrun hsent⟩

/-- The receiver can print all that it handles. -/
theorem exists_screen (hs : s.Initial n input) (hshort : ∀ p, (args p).Short)
    (hG : (chat nc args).Always Orderly s ms) (hrun : (chat nc args).run s ms = some t) (q : ι) :
    ∃ lines, (t.session q).handled.mapM (fun y => y.1.shown) = some lines :=
  exists_mapM (t.session q).handled fun y hy => by
    obtain ⟨p, -, -, txt, -, hshown⟩ := exists_shown_of_handled hs hshort hG hrun hy
    exact ⟨_, hshown⟩

/-- **What is shown.** However the clients and their signals interleave, the receiver of a
client can print everything that it handles, and it prints texts of other members of its
group, each behind the name of this member: the heart, the hello and the lines of its
standard input. -/
theorem chat_screen (hs : s.Initial n input) (hshort : ∀ p, (args p).Short)
    (hG : (chat nc args).Always Orderly s ms) (hrun : (chat nc args).run s ms = some t) (q : ι) :
    ∃ lines, (t.session q).screen (args q) = some lines ∧ ∀ line ∈ lines,
      ∃ p, p ≠ q ∧ (args p).groupName = (args q).groupName ∧
        ∃ txt ∈ utterances (args p) (inputLines (input p)),
          line = (args p).name ++ [58, 32] ++ text txt := by
  unfold Session.screen
  split_ifs with hmode
  · exact ⟨[], rfl, by simp⟩
  · obtain ⟨lines, hlines⟩ := exists_screen hs hshort hG hrun q
    refine ⟨lines, hlines, fun line hline => ?_⟩
    obtain ⟨y, hy, hprinted⟩ := of_mem_mapM hlines hline
    obtain ⟨p, hne, hgroup, txt, htxt, hshown⟩ := exists_shown_of_handled hs hshort hG hrun hy
    exact ⟨p, hne, hgroup, txt, htxt, Option.some.inj (hprinted.symm.trans hshown)⟩

/-- The hello is shown. -/
theorem chat_screen_hello :
    ∃ t, (chat 1 twoNames).run (start 1 (newQueue 1) fun _ => []) (helloSent ++ helloPasses 0) =
        some t ∧
      ∃ lines, (t.session false).screen (twoNames false) = some lines ∧ lines.length = 1 ∧
        ∀ line ∈ lines, ∃ p, p ≠ false ∧ ∃ txt ∈ utterances (twoNames p) [],
          line = (twoNames p).name ++ [58, 32] ++ text txt := by
  obtain ⟨t, hrun, hlen⟩ : ∃ t, (chat 1 twoNames).run (start 1 (newQueue 1) fun _ => [])
      (helloSent ++ helloPasses 0) = some t ∧
        ((t.session false).screen (twoNames false)).map List.length = some 1 :=
    StepSystem.exists_run (by decide +kernel)
  obtain ⟨lines, hlines, hall⟩ := chat_screen
    (initial_start (exists_initQueue_newQueue (by decide)) fun _ => []) short_twoNames
    (by decide +kernel) hrun false
  rw [hlines, Option.map_some, Option.some.injEq] at hlen
  refine ⟨t, hrun, lines, hlines, hlen, fun line hline => ?_⟩
  obtain ⟨p, hne, -, txt, htxt, hline⟩ := hall line hline
  exact ⟨p, hne, txt, by simpa [inputLines] using htxt, hline⟩

omit [DecidableEq ι] in
/-- Messages as they should be are shown as they should be. -/
theorem mapM_shown {name : List UInt8} {xs : List (Sender × Message)}
    {es : List (Sender × List UInt8)} (h : List.Forall₂ Says xs es)
    (hname : ∀ x ∈ xs, CString.read x.2.name.toList = some name) :
    (xs.map Prod.snd).mapM Message.shown = some (es.map fun e => name ++ [58, 32] ++ text e.2) := by
  induction h with
  | nil => rfl
  | cons hsays _ ih =>
    have hshown := Message.shown_of_holds (hname _ List.mem_cons_self) hsays.2
    have hrest := ih fun x hx => hname x (List.mem_cons_of_mem _ hx)
    rw [List.map_cons, List.mapM_cons, hshown, hrest]
    rfl

/-- What is heard of a client that is not disturbed, and whose input has come to its end. -/
theorem mapM_heard (hs : s.Initial n input) (hshort : ∀ p, (args p).Short)
    (hG : (chat nc args).Always Orderly s (pre ++ post))
    (hK : (chat nc args).Always Serial s (pre ++ post)) (hpre : (chat nc args).run s pre = some u)
    (hpost : (chat nc args).run u post = some t) (hsettled : t.Settled) {p q : ι} (hne : p ≠ q)
    (hgroup : (args p).groupName = (args q).groupName)
    (hjoined : (u.session q).handler.member?.isSome) (hrun : (t.session q).Running)
    (hans : (t.session q).Answered) (hnone : t.before p u.server.popped.length = 0)
    (hkeeps : (chat nc args).Always (Undisturbed p) s (pre ++ post))
    (hnext : (t.session p).client.next = .fgets) (hstdin : (t.session p).client.stdin = []) :
    (t.heard q p).mapM Message.shown =
      some ((script (args p) (inputLines (input p))).map fun e =>
        (args p).name ++ [58, 32] ++ text e.2) := by
  have hboth := StepSystem.run_append_eq_some.mpr ⟨u, hpre, hpost⟩
  have hperm := heard_perm hs hshort hG hpre hpost hsettled hne hgroup hjoined hrun hans hnone
  have hheard := (heard_sublist hs hshort hG hK hboth q p).eq_of_length hperm.length_eq
  obtain ⟨hprogress, hquiet⟩ := progress_of_run hs hshort hG hkeeps hboth
  obtain ⟨-, hlines⟩ := speaks_of_run hs hshort hG hboth p
  have hall : inputLines (input p) = (t.session p).client.lines := by
    rw [hlines, hstdin]
    simp [inputLines]
  -- without hearts all that has been sent is by `main`
  have hwritten : (t.session p).client.written = (t.session p).client.sent :=
    List.filter_eq_self.mpr fun x hx => by simpa using hquiet x hx
  simp only [Progress, hnext, hwritten] at hprogress
  rw [hheard, hall]
  exact mapM_shown hprogress fun x hx =>
    (((inv_of_run hs.inv hshort hG hboth).linked p).identity.sent x hx).name

omit [DecidableEq ι] in
/-- The lines of a screen that show messages of `p`. -/
def linesOf (s : Chat ι nc) (q p : ι) (lines : List (List UInt8)) : List (List UInt8) :=
  ((((s.session q).mail s.server).zip lines).filter fun x => s.From p x.1.1).map Prod.snd

omit [DecidableEq ι] in
/-- They are what is shown of the messages that are heard. -/
theorem Inv.mapM_heard_eq (hinv : s.Inv args n) (q p : ι) {lines : List (List UInt8)}
    (hlines : (s.session q).handled.mapM (fun y => y.1.shown) = some lines) :
    (s.heard q p).mapM Message.shown = some (s.linesOf q p lines) := by
  have hmail := (hinv.linked q).map_mail hinv.server
  have hall : ((s.session q).mail s.server).mapM (Message.shown ∘ Prod.snd) = some lines := by
    rw [← hlines, ← List.mapM_map, hmail, List.mapM_map]
    rfl
  rw [heard, List.mapM_map]
  exact mapM_filter hall fun x => s.From p x.1

/-- **The recital.** A client that is not disturbed, and whose input has come to its end, is
shown to a reader that was there from its first message as it should be, when there is
nothing left to do: the lines of the screen that are its own are the hello, unless it is in
`TEST` mode, and every line of its input, once and in order, if no two messages of a group
were being delivered side by side. -/
theorem chat_recital (hs : s.Initial n input) (hshort : ∀ p, (args p).Short)
    (hG : (chat nc args).Always Orderly s (pre ++ post))
    (hK : (chat nc args).Always Serial s (pre ++ post)) (hpre : (chat nc args).run s pre = some u)
    (hpost : (chat nc args).run u post = some t) (hsettled : t.Settled) {p q : ι} (hne : p ≠ q)
    (hgroup : (args p).groupName = (args q).groupName) (hmode : (args q).mode ≠ .test)
    (hjoined : (u.session q).handler.member?.isSome) (hrun : (t.session q).Running)
    (hans : (t.session q).Answered) (hnone : t.before p u.server.popped.length = 0)
    (hkeeps : (chat nc args).Always (Undisturbed p) s (pre ++ post))
    (hnext : (t.session p).client.next = .fgets) (hstdin : (t.session p).client.stdin = []) :
    ∃ lines, (t.session q).screen (args q) = some lines ∧
      t.linesOf q p lines = (script (args p) (inputLines (input p))).map fun e =>
        (args p).name ++ [58, 32] ++ text e.2 := by
  have hboth := StepSystem.run_append_eq_some.mpr ⟨u, hpre, hpost⟩
  obtain ⟨lines, hlines⟩ := exists_screen hs hshort hG hboth q
  refine ⟨lines, (if_neg hmode).trans hlines, ?_⟩
  have hheard := mapM_heard hs hshort hG hK hpre hpost hsettled hne hgroup hjoined hrun hans hnone
    hkeeps hnext hstdin
  rw [(inv_of_run hs.inv hshort hG hboth).mapM_heard_eq q p hlines] at hheard
  exact Option.some.inj hheard

/-- The line `hi`, in the buffer of the client `s`. -/
def lineFrom : List UInt8 :=
  List.replicate 24 0 ++ nameField [115] ++
    ([104, 105, 10, 0] ++ helloText.drop 4 ++ List.replicate 186 0)

/-- Behind the hello, the client takes a line and sends it. -/
def lineSent (c : Fin nc) : List (ChatMove Bool nc) :=
  helloPasses c ++ List.replicate 3 (.main true ⟨0, 0⟩) ++
    [.read true 0 (.data lineFrom), .insert true 0 ⟨0, 0⟩, .pop c, .turn c, .turn c, .turn c,
      .receive false (.data lineFrom) ⟨0, 3⟩]

/-- The hello and the line are shown. -/
theorem chat_recital_line :
    ∃ t, (chat consumerThreadCount twoNames).run
        (start consumerThreadCount (newQueue 1) fun _ => [104, 105, 10]) (helloSent ++ lineSent 0) =
          some t ∧
      ∃ lines, (t.session false).screen (twoNames false) = some lines ∧
        t.linesOf false true lines = [[115, 58, 32] ++ helloText, [115, 58, 32, 104, 105, 10]] := by
  obtain ⟨u, hpre, hjoined, hopen⟩ : ∃ u, (chat consumerThreadCount twoNames).run
      (start consumerThreadCount (newQueue 1) fun _ => [104, 105, 10]) helloSent = some u ∧
        (u.session false).handler.member?.isSome ∧ u.server.popped = [] :=
    StepSystem.exists_run (by decide +kernel)
  obtain ⟨t, hrun, hsettled, hready, hnext, hstdin⟩ : ∃ t, (chat consumerThreadCount twoNames).run
      (start consumerThreadCount (newQueue 1) fun _ => [104, 105, 10]) (helloSent ++ lineSent 0) =
        some t ∧ t.Settled ∧ ((t.session false).Running ∧ (t.session false).Answered) ∧
          (t.session true).client.next = .fgets ∧ (t.session true).client.stdin = [] :=
    StepSystem.exists_run (by decide +kernel)
  obtain ⟨u', hpre', hpost⟩ := StepSystem.run_append_eq_some.mp hrun
  obtain rfl := Option.some.inj (hpre.symm.trans hpre')
  obtain ⟨lines, hscreen, hrecital⟩ := chat_recital
    (initial_start (exists_initQueue_newQueue (by decide)) fun _ => [104, 105, 10]) short_twoNames
    (by decide +kernel) (by decide +kernel) hpre hpost hsettled (p := true) (q := false)
    (by decide) rfl (by decide) hjoined hready.1 hready.2 (by simp [before, hopen])
    (by decide +kernel) hnext hstdin
  have hlines : inputLines [104, 105, 10] = [[104, 105, 10]] := by
    have htake : takeLine [104, 105, 10] = ([104, 105, 10], []) := by decide
    rw [inputLines_of_ne_nil (by simp), htake]
    simp [inputLines]
  rw [hlines] at hrecital
  exact ⟨t, hrun, lines, hscreen, hrecital.trans (by decide)⟩

end Chat

end GroupChat
