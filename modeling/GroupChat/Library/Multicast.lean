import GroupChat.Library.StepSystem
import Mathlib.Data.List.Sort
import Mathlib.Logic.Function.Basic

/-!
# Group multicast

What a group chat is for, without any mechanism: parties enter groups, say things,
and receive what others in their group have said (`multicast`). What a party has said is
posted on a single board, in its order; a post is named by its place on the board, its
ticket. A party receives posts by their tickets, those of others in its group only, and
the relation `R` says which ticket may come after which in one inbox: `(· ≠ ·)` asks
for no more than that nothing comes twice, `(· < ·)` that everybody keeps to the order
of the board.

What one party has received from another is then among what the other has said, each of
it once at most (`Multicast.Inv.received_subperm`), in the order in which it was
said if inboxes are ordered (`Multicast.Inv.received_sublist`); in this case there is one
order that all receivers share (`Multicast.Inv.contents_sublist`).
-/

/-- The service, with parties in `ι`, groups in `γ` and messages in `α`. -/
structure Multicast (ι γ α : Type*) where
  /-- The group that a party has entered. -/
  group : ι → Option γ
  /-- What a party has said. -/
  outbox : ι → List α
  /-- The board. -/
  posts : List (ι × α)
  /-- The tickets of the posts that a party has received. -/
  inbox : ι → List ℕ

/-- A move of one of the parties. -/
inductive MulticastMove (ι γ α : Type*) where
  | enter (i : ι) (g : γ)
  | say (i : ι) (a : α)
  /-- The next of the things that a party has said comes to the board. -/
  | post (i : ι)
  | receive (i : ι) (ticket : ℕ)

namespace Multicast

variable {ι γ α : Type*} [DecidableEq ι]

/-- The service before anybody has entered. -/
def start (ι γ α : Type*) : Multicast ι γ α := ⟨fun _ => none, fun _ => [], [], fun _ => []⟩

/-- The message of a post, if it is by this party. -/
def ofAuthor (j : ι) (x : ι × α) : Option α := if x.1 = j then some x.2 else none

/-- What a party has said and is on the board. -/
def posted (s : Multicast ι γ α) (j : ι) : List α := s.posts.filterMap (ofAuthor j)

/-- What a party has received. -/
def contents (s : Multicast ι γ α) (i : ι) : List (ι × α) :=
  (s.inbox i).filterMap fun ticket => s.posts[ticket]?

/-- What the party `i` has received from the party `j`. -/
def received (s : Multicast ι γ α) (i j : ι) : List α := (s.contents i).filterMap (ofAuthor j)

/-- The post with this ticket is one for the party `i`. -/
def For (s : Multicast ι γ α) (i : ι) (ticket : ℕ) : Prop :=
  (s.group i).isSome ∧ ∃ x ∈ s.posts[ticket]?, x.1 ≠ i ∧ s.group x.1 = s.group i

instance [DecidableEq γ] (s : Multicast ι γ α) (i : ι) (ticket : ℕ) :
    Decidable (s.For i ticket) :=
  inferInstanceAs (Decidable (_ ∧ ∃ x ∈ s.posts[ticket]?, _))

end Multicast

open Multicast in
/-- The moves of the service, with inboxes ordered by `R`. -/
def multicast {ι γ α : Type*} [DecidableEq ι] [DecidableEq γ] (R : ℕ → ℕ → Prop)
    [DecidableRel R] : StepSystem (Multicast ι γ α) (MulticastMove ι γ α) where
  enabled s
    | .enter i _ => s.group i = none
    | .say i _ => (s.group i).isSome
    | .post i => (s.posted i).length < (s.outbox i).length
    | .receive i ticket => s.For i ticket ∧ ∀ earlier ∈ s.inbox i, R earlier ticket
  effect s
    | .enter i g => some { s with group := Function.update s.group i (some g) }
    | .say i a => some { s with outbox := Function.update s.outbox i (s.outbox i ++ [a]) }
    | .post i => (s.outbox i)[(s.posted i).length]?.map fun a =>
        { s with posts := s.posts ++ [(i, a)] }
    | .receive i ticket =>
        some { s with inbox := Function.update s.inbox i (s.inbox i ++ [ticket]) }
  decEnabled s m := by
    cases m <;> simp only <;> infer_instance

namespace Multicast

variable {ι γ α : Type*} {R : ℕ → ℕ → Prop} {s t : Multicast ι γ α}

theorem For.lt {i : ι} {ticket : ℕ} (h : s.For i ticket) : ticket < s.posts.length := by
  obtain ⟨-, x, hx, -⟩ := h
  exact (List.getElem?_eq_some_iff.mp hx).1

/-- What is on the board for a party stays so. -/
theorem For.mono {i : ι} {ticket : ℕ} (h : s.For i ticket) (hposts : s.posts <+: t.posts)
    (hgroup : ∀ j, (s.group j).isSome → t.group j = s.group j) : t.For i ticket := by
  obtain ⟨hi, x, hx, hne, heq⟩ := h
  obtain ⟨rest, hrest⟩ := hposts
  have hxt : t.posts[ticket]? = some x := by
    rw [← hrest, List.getElem?_append_left (List.getElem?_eq_some_iff.mp hx).1]
    exact hx
  have hx₁ : (s.group x.1).isSome := heq ▸ hi
  refine ⟨by rwa [hgroup i hi], x, hxt, hne, ?_⟩
  rw [hgroup x.1 hx₁, hgroup i hi, heq]

variable [DecidableEq ι]

/-- **What the service guarantees.** -/
structure Inv (R : ℕ → ℕ → Prop) (s : Multicast ι γ α) : Prop where
  posted : ∀ j, s.posted j <+: s.outbox j
  pairwise : ∀ i, (s.inbox i).Pairwise R
  addressed : ∀ i, ∀ ticket ∈ s.inbox i, s.For i ticket

theorem inv_start : (start ι γ α).Inv R where
  posted _ := List.prefix_refl _
  pairwise _ := List.Pairwise.nil
  addressed _ _ h := absurd h (List.not_mem_nil)

theorem posted_concat (s : Multicast ι γ α) (i j : ι) (a : α) :
    { s with posts := s.posts ++ [(i, a)] }.posted j =
      s.posted j ++ if i = j then [a] else [] := by
  by_cases h : i = j <;> simp [posted, ofAuthor, h]

/-- **Every move keeps the guarantees.** -/
theorem Inv.step [DecidableEq γ] [DecidableRel R] (h : s.Inv R) {m : MulticastMove ι γ α}
    (hexec : (multicast R).exec s m = some t) : t.Inv R := by
  obtain ⟨hen, heff⟩ := StepSystem.exec_eq_some.mp hexec
  cases m with
  | enter i g =>
    obtain rfl := Option.some.inj heff
    refine ⟨h.posted, h.pairwise, fun j ticket hmem =>
      (h.addressed j ticket hmem).mono (List.prefix_refl _) ?_⟩
    -- whoever had a group before is somebody else
    intro k hk
    refine Function.update_of_ne ?_ _ _
    rintro rfl
    simp only [multicast] at hen
    simp [hen] at hk
  | say i a =>
    obtain rfl := Option.some.inj heff
    refine ⟨fun j => ?_, h.pairwise, h.addressed⟩
    by_cases hij : j = i
    · subst hij
      have hgrow := (h.posted j).trans (List.prefix_append (s.outbox j) [a])
      simpa [Multicast.posted] using hgrow
    · simpa [Multicast.posted, Function.update_of_ne hij] using h.posted j
  | post i =>
    obtain ⟨a, ha, rfl⟩ := Option.map_eq_some_iff.mp heff
    refine ⟨fun j => ?_, h.pairwise, fun j ticket hmem =>
      (h.addressed j ticket hmem).mono (List.prefix_append _ _) fun _ _ => rfl⟩
    rw [posted_concat]
    by_cases hij : i = j
    · subst hij
      rw [if_pos rfl]
      obtain ⟨hlt, rfl⟩ := List.getElem?_eq_some_iff.mp ha
      obtain ⟨rest, hrest⟩ := h.posted i
      have htake : (s.outbox i).take (s.posted i).length = s.posted i := by
        rw [← hrest, List.take_left]
      refine ⟨(s.outbox i).drop ((s.posted i).length + 1), ?_⟩
      calc s.posted i ++ [(s.outbox i)[(s.posted i).length]] ++
            (s.outbox i).drop ((s.posted i).length + 1)
          = (s.outbox i).take (s.posted i).length ++ (s.outbox i).drop (s.posted i).length := by
            rw [htake, List.append_assoc, List.singleton_append, ← List.drop_eq_getElem_cons hlt]
        _ = s.outbox i := List.take_append_drop _ _
    · rw [if_neg hij, List.append_nil]
      exact h.posted j
  | receive i ticket =>
    obtain rfl := Option.some.inj heff
    obtain ⟨hfor, hlast⟩ := hen
    refine ⟨h.posted, fun j => ?_, fun j ticket' hmem => ?_⟩
    · by_cases hij : j = i
      · subst hij
        simp only [Function.update_self]
        refine List.pairwise_append.mpr ⟨h.pairwise j, List.pairwise_singleton R ticket, ?_⟩
        intro earlier hearlier later hlater
        obtain rfl := List.mem_singleton.mp hlater
        exact hlast earlier hearlier
      · simp only [Function.update_of_ne hij]
        exact h.pairwise j
    · by_cases hij : j = i
      · subst hij
        simp only [Function.update_self, List.mem_append, List.mem_singleton] at hmem
        rcases hmem with hold | rfl
        · exact h.addressed j ticket' hold
        · exact hfor
      · simp only [Function.update_of_ne hij] at hmem
        exact h.addressed j ticket' hmem

/-- **The guarantees hold in every run.** -/
theorem inv_of_run [DecidableEq γ] [DecidableRel R] {ms : List (MulticastMove ι γ α)}
    (hs : s.Inv R) (hrun : (multicast R).run s ms = some t) : t.Inv R :=
  StepSystem.run_invariant' (fun _ _ _ h hexec => h.step hexec) hs hrun

/-- Several things are said, one after the other. -/
theorem run_say [DecidableEq γ] [DecidableRel R] {i : ι} (hi : (s.group i).isSome) (as : List α) :
    (multicast R).run s (as.map (.say i)) =
      some { s with outbox := Function.update s.outbox i (s.outbox i ++ as) } := by
  induction as generalizing s with
  | nil => simp
  | cons a as ih =>
    have hexec : (multicast R).exec s (.say i a) =
        some { s with outbox := Function.update s.outbox i (s.outbox i ++ [a]) } :=
      StepSystem.exec_eq_some.mpr ⟨hi, rfl⟩
    rw [List.map_cons, StepSystem.run_cons, hexec, Option.bind_some]
    refine (ih (s := { s with outbox := Function.update s.outbox i (s.outbox i ++ [a]) }) hi).trans
      ?_
    simp

/-! ### What is received -/

/-- The board, ticket by ticket. -/
theorem filterMap_range_getElem? {β : Type*} (xs : List β) :
    (List.range xs.length).filterMap (fun k => xs[k]?) = xs := by
  induction xs using List.reverseRecOn with
  | nil => rfl
  | append_singleton xs x ih =>
    have hold : (List.range xs.length).filterMap (fun k => (xs ++ [x])[k]?) =
        (List.range xs.length).filterMap (fun k => xs[k]?) := by
      refine List.filterMap_congr fun k hk => ?_
      rw [List.getElem?_append_left (List.mem_range.mp hk)]
    rw [List.length_append, List.length_singleton, List.range_succ, List.filterMap_append, hold, ih]
    simp

theorem Inv.inbox_subset (h : s.Inv R) (i : ι) : s.inbox i ⊆ List.range s.posts.length :=
  fun ticket hmem => List.mem_range.mpr (h.addressed i ticket hmem).lt

/-- **Nothing is forged and nothing comes twice**: what a party has received is among the
posts, each of them once at most. -/
theorem Inv.contents_subperm (h : s.Inv (· ≠ ·)) (i : ι) : (s.contents i).Subperm s.posts := by
  obtain ⟨tickets, hperm, hsub⟩ := List.subperm_of_subset (h.pairwise i) (h.inbox_subset i)
  refine ⟨tickets.filterMap fun ticket => s.posts[ticket]?, hperm.filterMap _, ?_⟩
  have hall := hsub.filterMap fun ticket => s.posts[ticket]?
  rwa [filterMap_range_getElem?] at hall

/-- What has been received from one party is among what this party has said. -/
theorem Inv.received_subperm (h : s.Inv (· ≠ ·)) (i j : ι) :
    (s.received i j).Subperm (s.outbox j) := by
  obtain ⟨xs, hperm, hsub⟩ := h.contents_subperm i
  have hposted : (s.received i j).Subperm (s.posted j) :=
    ⟨xs.filterMap (ofAuthor j), hperm.filterMap _, hsub.filterMap _⟩
  exact hposted.trans (h.posted j).sublist.subperm

/-- **Nothing is misdirected.** -/
theorem Inv.received_eq_nil (h : s.Inv R) {i j : ι} (hne : j = i ∨ s.group j ≠ s.group i) :
    s.received i j = [] := by
  rw [received, List.filterMap_eq_nil_iff]
  intro x hx
  obtain ⟨ticket, hmem, hticket⟩ := List.mem_filterMap.mp hx
  obtain ⟨-, y, hy, hyi, hgroup⟩ := h.addressed i ticket hmem
  obtain rfl := Option.some.inj (hticket.symm.trans hy)
  refine if_neg ?_
  rintro rfl
  exact hne.elim hyi fun hcon => hcon hgroup

/-- **One order for all**: where inboxes are ordered, everybody has received a part of the
board, in the order of the board. -/
theorem Inv.contents_sublist (h : s.Inv (· < ·)) (i : ι) : (s.contents i).Sublist s.posts := by
  have hsub : (s.inbox i).Sublist (List.range s.posts.length) :=
    List.sublist_of_subperm_of_pairwise
      (List.subperm_of_subset ((h.pairwise i).imp Nat.ne_of_lt) (h.inbox_subset i))
      (h.pairwise i) List.pairwise_lt_range
  have hall := hsub.filterMap fun ticket => s.posts[ticket]?
  rwa [filterMap_range_getElem?] at hall

/-- What has been received from one party has come in the order in which it was said. -/
theorem Inv.received_sublist (h : s.Inv (· < ·)) (i j : ι) :
    (s.received i j).Sublist (s.outbox j) :=
  ((h.contents_sublist i).filterMap (ofAuthor j)).trans (h.posted j).sublist

/-- **Nothing is lost**: if the posts from the ticket `n` on that are by `j` have all been
received by `i`, their messages have been. -/
theorem filterMap_drop_subperm_received {n : ℕ} {i j : ι}
    (h : ∀ ticket a, n ≤ ticket → s.posts[ticket]? = some (j, a) → ticket ∈ s.inbox i) :
    ((s.posts.drop n).filterMap (ofAuthor j)).Subperm (s.received i j) := by
  -- the tickets of these posts, in the order of the board
  have hdrop : (s.posts.drop n).filterMap (ofAuthor j) =
      ((List.range' n (s.posts.length - n)).filter fun ticket =>
        (s.posts[ticket]?.bind (ofAuthor j)).isSome).filterMap fun ticket =>
          s.posts[ticket]?.bind (ofAuthor j) := by
    have hrange : (List.range' n (s.posts.length - n)).filterMap (fun k => s.posts[k]?) =
        s.posts.drop n := by
      rw [List.range'_eq_map_range, List.filterMap_map, ← List.length_drop]
      conv_rhs => rw [← filterMap_range_getElem? (s.posts.drop n)]
      refine List.filterMap_congr fun k _ => ?_
      rw [List.getElem?_drop, Function.comp_apply]
    rw [← hrange, List.filterMap_filterMap, List.filterMap_filter]
    refine List.filterMap_congr fun k _ => ?_
    cases s.posts[k]?.bind (ofAuthor j) <;> rfl
  rw [hdrop]
  have hnodup : ((List.range' n (s.posts.length - n)).filter fun ticket =>
      (s.posts[ticket]?.bind (ofAuthor j)).isSome).Nodup := (List.nodup_range').filter _
  have hsubset : (List.range' n (s.posts.length - n)).filter (fun ticket =>
      (s.posts[ticket]?.bind (ofAuthor j)).isSome) ⊆ s.inbox i := by
    intro ticket hmem
    obtain ⟨hrange, hsome⟩ := List.mem_filter.mp hmem
    obtain ⟨a, ha⟩ := Option.isSome_iff_exists.mp hsome
    obtain ⟨x, hx, hauthor⟩ := Option.bind_eq_some_iff.mp ha
    unfold ofAuthor at hauthor
    split_ifs at hauthor with hxj
    subst hxj
    exact h ticket x.2 (List.mem_range'_1.mp hrange).1 hx
  obtain ⟨tickets, hperm, hsub⟩ := List.subperm_of_subset hnodup hsubset
  refine ⟨_, hperm.filterMap _, ?_⟩
  rw [received, contents, List.filterMap_filterMap]
  exact hsub.filterMap _

end Multicast
