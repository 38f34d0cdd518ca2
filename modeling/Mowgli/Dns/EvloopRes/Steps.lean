import Mowgli.Dns.EvloopRes.Requests
import Mowgli.Library.Run
/-!
# The functions of the resolver, as steps of its requests

For each function, what it does to the requests, where it is called for one
that is there. None of them uses a request that is not there, and the loops
over the requests end: a function stops only where `query_name` finds no id.
-/

namespace Mowgli

open Prog

namespace DnsEvloop

/-- The requests of a state. -/
def view (s : DnsEvloop) : DnsRequests := ⟨s.domain, s.requestList, s.allocated, s.submitted, s.calls, s.deleted, s.packets⟩

/-- How many queries the callbacks have still to submit. -/
def pending (s : DnsEvloop) : ℕ := (s.callbacks.map List.length).sum

/-- The request `r` is there, between `xs` and `ys`. -/
structure At (s : DnsEvloop) (xs : List DnsReslist) (r : DnsReslist) (ys : List DnsReslist) : Prop where
  list : s.requestList = xs ++ r :: ys
  before : ∀ q ∈ xs, q.node ≠ r.node
  after : ∀ q ∈ ys, q.node ≠ r.node

variable {s s' : DnsEvloop} {xs ys : List DnsReslist} {r r' : DnsReslist}

theorem At.get (h : s.At xs r ys) : s.get r.node = some r := by
  rw [DnsEvloop.get, h.list, List.find?_append, List.find?_cons_of_pos (by simp)]
  rw [List.find?_eq_none.2 fun q hq => by simpa using h.before q hq, Option.none_or]

theorem At.put (h : s.At xs r ys) (hn : r'.node = r.node) : s.put r' = { s with requestList := xs ++ r' :: ys } := by
  have hmap : ∀ zs : List DnsReslist, (∀ q ∈ zs, q.node ≠ r.node) →
      (zs.map fun q => if q.node = r'.node then r' else q) = zs := fun zs hz => by
    conv_rhs => rw [← List.map_id zs]
    exact List.map_congr_left fun q hq => if_neg (hn ▸ hz q hq)
  rw [DnsEvloop.put, h.list, List.map_append, List.map_cons, hmap xs h.before, hmap ys h.after, if_pos hn.symm]

theorem At.filter (h : s.At xs r ys) : (s.requestList.filter fun q => q.node ≠ r.node) = xs ++ ys := by
  rw [h.list, List.filter_append, List.filter_cons_of_neg (by simp)]
  rw [List.filter_eq_self.2 fun q hq => by simpa using h.before q hq]
  rw [List.filter_eq_self.2 fun q hq => by simpa using h.after q hq]

/-- The request, changed, is where it was. -/
theorem At.changed (h : s.At xs r ys) (hn : r'.node = r.node) (hs : s'.requestList = xs ++ r' :: ys) : s'.At xs r' ys :=
  ⟨hs, fun q hq => hn ▸ h.before q hq, fun q hq => hn ▸ h.after q hq⟩

theorem At.congr (h : s.At xs r ys) (hs : s'.requestList = s.requestList) : s'.At xs r ys :=
  ⟨hs.trans h.list, h.before, h.after⟩

theorem At.mem (h : s.At xs r ys) : r ∈ s.requestList := by
  rw [h.list]
  exact List.mem_append_right _ (List.mem_cons_self ..)

/-- Requests that are apart can be told by their address. -/
theorem at_of_apart (h : s.view.Apart) (hlist : s.requestList = xs ++ r :: ys) : s.At xs r ys := by
  have hn : (s.requestList.map DnsReslist.node).Nodup := h.nodup
  rw [hlist, List.map_append, List.map_cons, List.nodup_append] at hn
  obtain ⟨-, hr, hdisj⟩ := hn
  refine ⟨hlist, fun q hq heq => ?_, fun q hq heq => ?_⟩
  · exact hdisj _ (List.mem_map_of_mem hq) _ (List.mem_cons_self ..) heq
  · exact (List.nodup_cons.1 hr).1 (heq ▸ List.mem_map_of_mem hq)

theorem exists_at (h : s.view.Apart) (hr : r ∈ s.requestList) : ∃ xs ys, s.At xs r ys := by
  obtain ⟨xs, ys, hlist⟩ := List.append_of_mem hr
  exact ⟨xs, ys, at_of_apart h hlist⟩

theorem At.next (h : s.At xs r ys) : next r.node s.requestList = some (ys.head?.map DnsReslist.node) := by
  rw [h.list]
  have hx := h.before
  clear h
  induction xs with
  | nil => rw [List.nil_append, DnsEvloop.next, if_pos rfl]
  | cons q xs ih =>
    rw [List.cons_append, DnsEvloop.next, if_neg (hx q (List.mem_cons_self ..))]
    exact ih fun q' hq' => hx q' (List.mem_cons_of_mem _ hq')

/-- The id that the loop of `query_name` ends with is not in use. -/
theorem generateId_fresh {id id' : UInt16} {random random' : List UInt32}
    (h : s.generateId id random = some (id', random')) : ∀ q ∈ s.requestList, q.id ≠ id' := by
  induction random generalizing id with
  | nil => cases h
  | cons n random ih =>
    rw [generateId] at h
    split_ifs at h with hid
    · exact ih h
    · obtain ⟨rfl, -⟩ := Prod.mk.inj (Option.some.inj h)
      rw [findId, Bool.not_eq_true, Option.isSome_eq_false_iff, Option.isNone_iff_eq_none, List.find?_eq_none] at hid
      exact fun q hq => by simpa using hid q hq

end DnsEvloop

namespace Dns

open DnsEvloop

variable {E : DnsStop → Prop} {s s' : DnsEvloop} {xs ys : List DnsReslist} {r r' : DnsReslist} {a : Addr}

/-! ## Reading and changing a request -/

theorem ends_request {Q : DnsReslist → DnsEvloop → Prop} (h : s.At xs r ys) :
    Ends E (request r.node) s Q ↔ Q r s := by
  rw [request, ends_bind, ends_get, h.get]
  rfl

theorem ends_update {Q : Unit → DnsEvloop → Prop} {f : DnsReslist → DnsReslist} (h : s.At xs r ys)
    (hf : (f r).node = r.node) :
    Ends E (update r.node f) s Q ↔ Q () { s with requestList := xs ++ f r :: ys } := by
  rw [update, ends_bind, ends_request h, ends_modify, h.put hf]

theorem ends_remRequest {Q : Unit → DnsEvloop → Prop} (h : s.At xs r ys) :
    Ends E (remRequest r.node) s Q ↔ Q () { s with requestList := xs ++ ys } := by
  rw [remRequest, ends_bind, ends_request h, ends_modify, h.filter]

/-! ## Asking -/

/-- Sending changes nothing of the requests. -/
theorem sendLoop_spec (tries : ℕ → Bool) (order : List ℕ) (s : DnsEvloop) :
    Ends E (sendLoop tries order) s fun _ s' =>
      s'.requestList = s.requestList ∧ s'.view = s.view ∧ s'.callbacks = s.callbacks := by
  induction order generalizing s with
  | nil => exact ⟨rfl, rfl, rfl⟩
  | cons ns order ih =>
    rw [sendLoop]
    split_ifs with ht
    · simp only [vioSendto, ends_bind, ends_get, ends_set, ends_pure]
      split_ifs with hsent
      · exact ⟨rfl, rfl, rfl⟩
      · exact ih _
    · exact ih s

theorem sendResMsg_spec (rcount : ℕ) (s : DnsEvloop) :
    Ends E (sendResMsg rcount) s fun _ s' =>
      s'.requestList = s.requestList ∧ s'.view = s.view ∧ s'.callbacks = s.callbacks := by
  rw [sendResMsg, ends_bind, ends_modify, ends_bind, ends_get]
  refine (sendLoop_spec _ _ _).bind fun ns s' h => ?_
  cases ns with
  | some ns => exact h
  | none =>
    refine (sendLoop_spec _ _ _).mono fun _ s'' h' => ?_
    exact ⟨h'.1.trans h.1, h'.2.1.trans h.2.1, h'.2.2.trans h.2.2⟩

/-- What asking does to the requests. -/
def Asked (s : DnsEvloop) (xs : List DnsReslist) (r : DnsReslist) (ys : List DnsReslist) (s' : DnsEvloop) : Prop :=
  s'.callbacks = s.callbacks ∧ ∃ r' packets, Sends s.requestList s.packets r r' packets ∧
    s'.view = { s.view with list := xs ++ r' :: ys, packets := packets }

theorem sendQuery_spec (h : s.At xs r ys) :
    Ends (· = .noId) (sendQuery r.node) s fun _ s' => Asked s xs r ys s' := by
  rw [sendQuery, ends_bind, ends_request h, ends_bind, ends_get]
  cases hid : s.generateId 0 s.random with
  | none => exact ends_throw.2 rfl
  | some p =>
    obtain ⟨id, random⟩ := p
    dsimp only
    rw [ends_bind, ends_set, ends_bind]
    refine Iff.mpr (ends_update (h.congr rfl) rfl) ?_
    rw [ends_bind]
    refine (sendResMsg_spec _ _).mono fun ns s' hs => ?_
    have hfresh := generateId_fresh hid
    cases ns with
    | none =>
      refine ends_pure.2 ⟨hs.2.2, _, _, .packet id r.lastns hfresh, ?_⟩
      rw [hs.2.1]
      rfl
    | some ns =>
      have hat : s'.At xs { r with id := id, sends := r.sends + 1 } ys := h.changed rfl hs.1
      refine (ends_update hat rfl).2 ⟨hs.2.2, _, _, .packet id ns hfresh, ?_⟩
      have hv := congrArg (fun v => { v with list := xs ++ { r with id := id, sends := r.sends + 1, lastns := ns } :: ys }) hs.2.1
      exact hv

variable {lib : Reslib}

theorem queryName_spec (h : s.At xs r ys) :
    Ends (· = .noId) (queryName lib r.node) s fun _ s' => Asked s xs r ys s' := by
  rw [queryName, ends_bind, ends_request h]
  split_ifs with hq
  · exact sendQuery_spec h
  · refine ends_pure.2 ⟨rfl, r, s.packets, .nothing, ?_⟩
    rw [← h.list]
    rfl

/-- A request that asks for its name again. -/
theorem doQueryName_again (h : s.At xs r ys) {name : CString} {type : ℤ} (hq : hostName s.domain name = r.queryname)
    (ht : Int8.ofInt type = r.type) :
    Ends (· = .noId) (doQueryName lib (.again r.node) name type) s fun _ s' => Asked s xs r ys s' := by
  rw [doQueryName, ends_bind, ends_get, ends_bind, target, ends_pure, ends_bind, ends_update h rfl]
  have hr : { r with queryname := hostName s.domain name, type := .ofInt type } = r := by rw [hq, ht]
  have hs : { s with requestList := xs ++ r :: ys } = s := by rw [← h.list]
  rw [hostName] at hr
  rw [hr, hs]
  exact queryName_spec h

/-- A request that asks for its address again. -/
theorem doQueryNumber_again (h : s.At xs r ys) {addr : SockaddrStorage}
    (hq : ∀ q, addr.queryname = some q → q = r.queryname) (ht : Int8.ofInt DNS_T_PTR = r.type) :
    Ends (· = .noId) (doQueryNumber lib (.again r.node) addr) s fun _ s' => Asked s xs r ys s' := by
  rw [doQueryNumber, ends_bind, target, ends_pure]
  have hs : { s with requestList := xs ++ r :: ys } = s := by rw [← h.list]
  cases hn : addr.queryname with
  | none =>
    refine ends_pure.2 ⟨rfl, r, s.packets, .nothing, ?_⟩
    rw [← h.list]
    rfl
  | some q =>
    dsimp only
    rw [ends_bind, ends_update h rfl]
    have hr : { r with queryname := q, type := .ofInt DNS_T_PTR } = r := by rw [hq q hn, ht]
    rw [hr, hs]
    exact queryName_spec h

/-- **A request is sent again**: it asks for what it asked for before. -/
theorem resendQuery_spec (h : s.At xs r ys) (hst : r.Stable s.domain) :
    Ends (· = .noId) (resendQuery lib r.node) s fun _ s' => Asked s xs r ys s' := by
  rw [resendQuery, ends_bind, ends_request h]
  obtain ⟨name, hname, hhost⟩ := hst.named
  split_ifs with hp ha
  · refine doQueryNumber_again h (hst.number hp) ?_
    rw [← hp, Int8.ofInt_toInt]
  · rw [hname]
    exact doQueryName_again h (hhost ha) (Int8.ofInt_toInt _)
  · refine ends_pure.2 ⟨rfl, r, s.packets, .nothing, ?_⟩
    rw [← h.list]
    rfl

/-! ## New requests -/

/-- What `make_request` makes. -/
def fresh (s : DnsEvloop) (query : DnsQuery) : DnsReslist :=
  { node := s.allocated, id := 0, ttl := 0, type := 0, queryname := .ofBuffer [], retries := 3, sends := 0,
    sentat := s.now, timeout := 4, lastns := 0, addr := .zero, name := none, nameSize := 0, query := query }

/-- The state with a new request. -/
def made (s : DnsEvloop) (r : DnsReslist) : DnsEvloop :=
  { s with requestList := s.requestList ++ [r], allocated := s.allocated + 1 }

/-- What a lookup does to the requests. -/
def Looked (s : DnsEvloop) (query : DnsQuery) (s' : DnsEvloop) : Prop :=
  s'.callbacks = s.callbacks ∧ ∃ r packets, s.view.New query r packets ∧
    s'.view = { s.view with list := s.requestList ++ [r], allocated := s.allocated + 1, packets := packets }

theorem at_made (hold : ∀ q ∈ s.requestList, q.node < s.allocated) (hn : r.node = s.allocated) :
    (made s r).At s.requestList r [] :=
  ⟨rfl, fun q hq => hn ▸ (hold q hq).ne, fun _ hq => absurd hq List.not_mem_nil⟩

theorem ends_update_made {Q : Unit → DnsEvloop → Prop} {f : DnsReslist → DnsReslist}
    (hold : ∀ q ∈ s.requestList, q.node < s.allocated) (hn : r.node = s.allocated) (hf : (f r).node = s.allocated) :
    Ends E (update s.allocated f) (made s r) Q ↔ Q () (made s (f r)) := by
  have h := ends_update (E := E) (Q := Q) (f := f) (at_made hold hn) (hf.trans hn.symm)
  rwa [hn] at h

theorem ends_target {Q : Addr → DnsEvloop → Prop} {query : DnsQuery} {f : DnsReslist → DnsReslist}
    (hold : ∀ q ∈ s.requestList, q.node < s.allocated) (hf : (f (fresh s query)).node = s.allocated) :
    Ends E (target f (.new query)) s Q ↔ Q s.allocated (made s (f (fresh s query))) := by
  rw [target, ends_bind, makeRequest, ends_bind, ends_get, ends_bind, ends_set, ends_pure, ends_bind]
  exact ends_update_made hold rfl hf

/-- A new request that has asked. -/
theorem Asked.looked {query : DnsQuery} (h : Asked (made s r) s.requestList r [] s') (hn : r.node = s.allocated)
    (hq : r.query = query) (hs : r.sends = 0) (hst : r.Stable s.domain) : Looked s query s' := by
  obtain ⟨hc, r', packets, hsends, hv⟩ := h
  refine ⟨hc, r', packets, ⟨r, hn, hq, hs, hst, hsends.sublist fun q hq' => List.mem_append_left _ hq'⟩, hv⟩

theorem length_strlcpy_le (k : CString) (n : ℕ) : (k.strlcpy (n + 1)).length ≤ n := by
  rw [CString.strlcpy, CString.length, CString.take, Nat.add_sub_cancel, List.length_take]
  exact min_le_left _ _

theorem strlcpy_of_le {k : CString} {n : ℕ} (h : k.length ≤ n) : k.strlcpy (n + 1) = k :=
  CString.take_of_length_le h

/-- The local domain is added once. -/
theorem addLocalDomain_idem (domain k : CString) (size : ℕ) :
    addLocalDomain domain (addLocalDomain domain k size) size = addLocalDomain domain k size := by
  by_cases h : k.strchr (ch '.') = false ∧ domain.bytes ≠ [] ∧ domain.length + k.length + 2 < size
  · have hdot : ((k.append (.ofBuffer [ch '.'])).append domain).strchr (ch '.') = true := by
      rw [CString.strchr, CString.append, CString.append, Bool.or_eq_true]
      left
      rw [List.contains_iff_mem, List.mem_append, List.mem_append]
      exact Or.inl (Or.inr (by decide))
    rw [addLocalDomain, addLocalDomain, if_pos h, if_neg]
    rw [hdot]
    exact fun hf => by cases hf.1
  · rw [addLocalDomain, addLocalDomain, if_neg h, if_neg h]

theorem length_addLocalDomain_le (domain : CString) {k : CString} {size : ℕ} (h : k.length ≤ size) :
    (addLocalDomain domain k size).length ≤ size := by
  unfold addLocalDomain
  split_ifs with hd
  · have hlen : ((k.append (.ofBuffer [ch '.'])).append domain).length = k.length + 1 + domain.length := by
      rw [CString.length, CString.append, CString.append, List.length_append, List.length_append]
      rfl
    rw [hlen]
    omega
  · exact h

/-- The name that a request keeps is the one that it asks for. -/
theorem hostName_host (domain name : CString) :
    hostName domain (addLocalDomain domain (name.strlcpy (DNS_RES_HOSTLEN + 1)) DNS_RES_HOSTLEN) =
      (addLocalDomain domain (name.strlcpy (DNS_RES_HOSTLEN + 1)) DNS_RES_HOSTLEN).strlcpy (DNS_RES_HOSTLEN + 1) := by
  have hle := length_addLocalDomain_le domain (length_strlcpy_le name DNS_RES_HOSTLEN)
  rw [hostName, strlcpy_of_le hle, addLocalDomain_idem, strlcpy_of_le hle]

theorem gethostByname_spec (hold : ∀ q ∈ s.requestList, q.node < s.allocated) (name : CString) (query : DnsQuery)
    (type : ℤ) :
    Ends (· = .noId) (gethostByname lib name query type) s fun _ s' => Looked s query s' := by
  rw [gethostByname, doQueryName, ends_bind, ends_get, ends_bind, ends_target hold rfl, ends_bind]
  refine Iff.mpr (ends_update_made hold rfl rfl) ?_
  refine (queryName_spec (at_made hold rfl)).mono fun _ s' h => ?_
  -- a request for a name has no address
  refine h.looked rfl rfl rfl ⟨⟨_, rfl, fun _ => hostName_host _ _⟩, fun _ q hq => ?_, ?_, fun hsome => ?_⟩
  · cases hq
  · exact decide_eq_true (Nat.lt_succ_self _)
  · cases hsome

theorem ptr_ne : ¬ ((Int8.ofInt DNS_T_PTR).toInt = DNS_T_A ∨ (Int8.ofInt DNS_T_PTR).toInt = DNS_T_AAAA) := by decide

theorem zero_ne :
    ¬ ((0 : Int8).toInt = DNS_T_A ∨ (0 : Int8).toInt = DNS_T_AAAA) ∧ ¬ (0 : Int8).toInt = DNS_T_PTR := by decide

theorem gethostByaddr_spec (hold : ∀ q ∈ s.requestList, q.node < s.allocated) (addr : SockaddrStorage)
    (query : DnsQuery) :
    Ends (· = .noId) (gethostByaddr lib addr query) s fun _ s' => Looked s query s' := by
  rw [gethostByaddr, doQueryNumber, ends_bind, ends_target hold rfl]
  cases hn : addr.queryname with
  | none =>
    refine ends_pure.2 ⟨rfl, _, s.packets, ⟨_, rfl, rfl, rfl, ?_, .nothing⟩, rfl⟩
    exact ⟨⟨_, rfl, fun ht => absurd ht zero_ne.1⟩, fun ht => absurd ht zero_ne.2, rfl, fun _ => rfl⟩
  | some q =>
    dsimp only
    rw [ends_bind]
    refine Iff.mpr (ends_update_made hold rfl rfl) ?_
    refine (queryName_spec (at_made hold rfl)).mono fun _ s' h => ?_
    refine h.looked rfl rfl rfl ⟨⟨_, rfl, fun ht => absurd ht ptr_ne⟩, fun _ q' hq' => ?_, rfl, fun _ => rfl⟩
    exact Option.some.inj (hq'.symm.trans hn)

theorem submit_spec (hg : s.view.Apart) (submission : DnsSubmission) :
    Ends (· = .noId) (submit lib submission) s fun _ s' => s'.callbacks = s.callbacks ∧
      ∃ r, Submits s.view [r] s'.view := by
  have hlook : ∀ query s', Looked { s with submitted := s.submitted + 1 } ⟨query, s.submitted⟩ s' →
      s'.callbacks = s.callbacks ∧ ∃ r, Submits s.view [r] s'.view := fun query s' h => by
    obtain ⟨hc, r, packets, new, hv⟩ := h
    refine ⟨hc, r, ?_⟩
    rw [hv]
    obtain ⟨r₀, hn, hq, h0, hst, hs⟩ := new.sends
    exact .snoc query r packets .nil ⟨r₀, hn, hq, h0, hst, hs⟩
  have hold : ∀ q ∈ ({ s with submitted := s.submitted + 1 } : DnsEvloop).requestList,
      q.node < ({ s with submitted := s.submitted + 1 } : DnsEvloop).allocated := hg.old
  rw [submit, ends_bind, ends_get, ends_bind, ends_set]
  cases submission with
  | byName name query type => exact (gethostByname_spec hold name _ type).mono fun _ s' => hlook query s'
  | byAddr addr query => exact (gethostByaddr_spec hold addr _).mono fun _ s' => hlook query s'

theorem submitAll_spec (l : List DnsSubmission) (hg : s.view.Apart) :
    Ends (· = .noId) (submitAll lib l) s fun _ s' => s'.callbacks = s.callbacks ∧
      ∃ added, added.length = l.length ∧ Submits s.view added s'.view := by
  induction l generalizing s with
  | nil => exact ⟨rfl, [], rfl, .nil⟩
  | cons submission l ih =>
    rw [submitAll]
    refine (submit_spec hg submission).bind fun _ s₁ h₁ => ?_
    obtain ⟨hc₁, r, hs₁⟩ := h₁
    refine (ih (hg.submits hs₁)).mono fun _ s₂ h₂ => ?_
    obtain ⟨hc₂, added, hlen, hs₂⟩ := h₂
    exact ⟨hc₂.trans hc₁, r :: added, congrArg Nat.succ hlen, hs₁.trans hs₂⟩

/-! ## Requests that come to their end -/

theorem pending_tail (s : DnsEvloop) : (s.callbacks.headD []).length + (s.callbacks.tail.map List.length).sum = s.pending := by
  rw [pending]
  cases s.callbacks with
  | nil => rfl
  | cons l rest => rw [List.map_cons, List.sum_cons]; rfl

/-- A request for the query of `r` was called back and removed from between
`xs` and `ys`, and the callback submitted others. -/
def Completed (s : DnsEvloop) (xs : List DnsReslist) (r : DnsReslist) (ys : List DnsReslist) (s' : DnsEvloop) : Prop :=
  ∃ result reply added, s'.requestList = xs ++ ys ++ added ∧ added.length + s'.pending = s.pending ∧
    DnsSteps { s.view with list := xs ++ ys, calls := s.calls ++ [⟨r.query, result, reply⟩] } s'.view

theorem complete_spec (hg : s.view.Apart) (h : s.At xs r ys) (reply : Option DnsReply) (result : DnsResult) :
    Ends (· = .noId) (complete lib r.node reply result) s fun _ s' => Completed s xs r ys s' := by
  have hg' : DnsRequests.Apart { s.view with calls := s.calls ++ [⟨r.query, result, reply⟩] } := ⟨hg.nodup, hg.old⟩
  rw [complete, callback, ends_bind, ends_bind, ends_request h, ends_bind, ends_get, ends_bind, ends_set]
  refine (submitAll_spec _ hg').mono fun _ s' hs => ?_
  obtain ⟨hc, added, hlen, hsub⟩ := hs
  have hlist : s'.requestList = xs ++ r :: (ys ++ added) := by
    rw [show s'.requestList = s.requestList ++ added from hsub.list, h.list, List.append_assoc]
    rfl
  have hat : s'.At xs r (ys ++ added) := at_of_apart (hg'.submits hsub) hlist
  refine (ends_remRequest hat).2 ⟨result, reply, added, (List.append_assoc ..).symm, ?_, ?_⟩
  · rw [hlen, ← pending_tail s, DnsEvloop.pending, hc]
  · have hdrop := hsub.drop h.list
    rw [List.append_assoc] at hdrop
    exact hdrop

/-- What was done to a request before it was removed makes no difference. -/
theorem Completed.steps {s₀ : DnsEvloop} (h : Completed s xs r ys s') (h₀ : s₀.requestList = xs ++ r' :: ys)
    (hq : r.query = r'.query) (hv : s.view = { s₀.view with list := xs ++ r :: ys }) : DnsSteps s₀.view s'.view := by
  obtain ⟨result, reply, added, -, -, hsteps⟩ := h
  refine .trans (.one (.complete xs ys r' result reply h₀)) ?_
  have hcalls : s.calls = s₀.calls := congrArg DnsRequests.calls hv
  have heq : ({ s.view with list := xs ++ ys, calls := s.calls ++ [⟨r.query, result, reply⟩] } : DnsRequests) =
      { s₀.view with list := xs ++ ys, calls := s₀.calls ++ [⟨r'.query, result, reply⟩] } := by
    rw [hcalls, hq, hv]
  rw [heq] at hsteps
  exact hsteps

/-! ## Replies -/

theorem procRecord_keeps (r : DnsReslist) (d : DnsDatagram) (type : ℤ) (rdLength current : ℕ) :
    (procRecord lib r d type rdLength current).2.node = r.node ∧
      (procRecord lib r d type rdLength current).2.query = r.query := by
  unfold procRecord
  dsimp only
  split_ifs <;> exact ⟨rfl, rfl⟩

theorem procAnswers_keeps (d : DnsDatagram) (n : ℕ) (r : DnsReslist) (current : ℕ) :
    (procAnswers lib d n r current).2.node = r.node ∧ (procAnswers lib d n r current).2.query = r.query := by
  induction n generalizing r current with
  | zero => exact ⟨rfl, rfl⟩
  | succ n ih =>
    rw [procAnswers]
    dsimp only
    split_ifs
    · exact ⟨rfl, rfl⟩
    · exact ⟨rfl, rfl⟩
    · exact ⟨rfl, rfl⟩
    · exact procRecord_keeps ..
    · exact ih ..
    · exact ih ..

/-- Decoding a reply leaves the request the one it is, and its query. -/
theorem procAnswer_keeps (r : DnsReslist) (d : DnsDatagram) :
    (procAnswer lib r d).2.node = r.node ∧ (procAnswer lib r d).2.query = r.query := by
  unfold procAnswer
  cases skipQuestions lib d d.header.qdcount DNS_HEADER_SIZE with
  | none => exact ⟨rfl, rfl⟩
  | some current => exact procAnswers_keeps ..

/-- **The name of a host fits**, unless it comes for a query of type PTR that was submitted
by name. -/
theorem hostFits_of_address {domain : CString} {r : DnsReslist} (hst : r.Stable domain)
    (h : r.type.toInt = DNS_T_PTR → r.addr.queryname.isSome) (d : DnsDatagram) : HostFits lib r d := by
  intro hasked start _ n current head _ _ _ len host _ _
  rw [hst.room (h hasked)]
  exact Nat.lt_succ_of_le (length_strlcpy_le _ _)

/-- The request between `xs` and `ys` came to its end, and new ones are behind
the others. -/
def Ended (s : DnsEvloop) (xs ys : List DnsReslist) (s' : DnsEvloop) : Prop :=
  DnsSteps s.view s'.view ∧ ∃ added, s'.requestList = xs ++ ys ++ added

variable {s₀ : DnsEvloop} {r₀ : DnsReslist}

/-- The request `r` of `s` is `r₀` of `s₀`, and what was decoded. -/
structure Decoded (s₀ : DnsEvloop) (xs : List DnsReslist) (r₀ : DnsReslist) (ys : List DnsReslist) (s : DnsEvloop)
    (r : DnsReslist) : Prop where
  list : s₀.requestList = xs ++ r₀ :: ys
  node : r.node = r₀.node
  query : r.query = r₀.query
  view : s.view = { s₀.view with list := xs ++ r :: ys }

theorem Decoded.apart (h : Decoded s₀ xs r₀ ys s r) (hg : s₀.view.Apart) : s.view.Apart := by
  rw [h.view]
  exact hg.changed h.list h.node rfl rfl

theorem Decoded.at (h : Decoded s₀ xs r₀ ys s r) (hg : s₀.view.Apart) : s.At xs r ys :=
  at_of_apart (h.apart hg) (congrArg DnsRequests.list h.view)

theorem Decoded.complete (h : Decoded s₀ xs r₀ ys s r) (hg : s₀.view.Apart) (reply : Option DnsReply)
    (result : DnsResult) :
    Ends (· = .noId) (complete lib r.node reply result) s fun _ s' => Ended s₀ xs ys s' := by
  refine (complete_spec (h.apart hg) (h.at hg) _ _).mono fun _ s' hs => ⟨hs.steps h.list h.query h.view, ?_⟩
  obtain ⟨-, -, added, hlist, -⟩ := hs
  exact ⟨added, hlist⟩

/-- The lookup of a name takes the place of that of an address. -/
theorem Decoded.forward (h : Decoded s₀ xs r₀ ys s r) (hg : s₀.view.Apart) (name : CString) (type : ℤ) :
    Ends (· = .noId) (gethostByname lib name r.query type >>= fun _ => remRequest r.node) s
      fun _ s' => Ended s₀ xs ys s' := by
  have hat := h.at hg
  refine (gethostByname_spec (h.apart hg).old name r.query _).bind fun _ s₁ h₁ => ?_
  obtain ⟨-, r', packets, new, hv₁⟩ := h₁
  have hs : s.requestList = xs ++ r :: ys := hat.list
  have hlist : s₁.requestList = xs ++ r :: (ys ++ [r']) := by
    rw [show s₁.requestList = s.requestList ++ [r'] from congrArg DnsRequests.list hv₁, hs, List.append_assoc]
    rfl
  have hat₁ : s₁.At xs r (ys ++ [r']) := by
    refine ⟨hlist, hat.before, fun q hmem => ?_⟩
    rcases List.mem_append.1 hmem with hmem | hmem
    · exact hat.after q hmem
    · rw [List.mem_singleton.1 hmem, new.node]
      exact ((h.apart hg).old r hat.mem).ne'
  refine (ends_remRequest hat₁).2 ⟨?_, [r'], (List.append_assoc ..).symm⟩
  -- the request that was removed only made it harder to find an id
  have new₀ : DnsRequests.New { s₀.view with list := xs ++ ys } r₀.query r' packets := by
    have hsub : ∀ q ∈ xs ++ ys, q ∈ s.view.list := fun q hmem => by
      rw [show s.view.list = xs ++ r :: ys from hs]
      simp only [List.mem_append, List.mem_cons] at hmem ⊢
      tauto
    have hnew := new.sublist hsub
    rwa [h.view, h.query] at hnew
  have heq : ({ s₁ with requestList := xs ++ (ys ++ [r']) } : DnsEvloop).view =
      { s₀.view with list := xs ++ ys ++ [r'], allocated := s₀.allocated + 1, packets := packets } := by
    have hs₁ := congrArg (fun v : DnsRequests => { v with list := xs ++ (ys ++ [r']) }) hv₁
    rw [show s.allocated = s₀.allocated from congrArg DnsRequests.allocated h.view, h.view] at hs₁
    rw [List.append_assoc]
    exact hs₁
  rw [heq]
  exact .one (.forward xs ys r₀ r' packets h.list new₀)

theorem handleReply_spec (hg : s.view.Apart) (h : s.At xs r ys) (d : DnsDatagram) (hfits : r.nameFits = true)
    (hhost : d.header.rcode = DNS_NO_ERRORS → d.header.ancount ≠ 0 → HostFits lib r d) :
    Ends (· = .noId) (handleReply lib r.node d) s fun _ s' => Ended s xs ys s' := by
  have hself : Decoded s xs r ys s r := ⟨h.list, rfl, rfl, by rw [← h.list]; rfl⟩
  rw [handleReply]
  by_cases hr : d.header.rcode ≠ DNS_NO_ERRORS ∨ d.header.ancount = 0
  · rw [if_pos hr]
    exact hself.complete hg _ _
  · obtain ⟨hn, hq⟩ := @procAnswer_keeps lib r d
    rw [if_neg hr, ends_bind, ends_request h, ends_bind, ends_update h hn]
    obtain ⟨hrcode, hancount⟩ := not_or.1 hr
    rw [if_pos ((procAnswer_fits_iff hfits).2 (hhost (not_not.1 hrcode) hancount))]
    have hdec : Decoded s xs r ys { s with requestList := xs ++ (procAnswer lib r d).2 :: ys } (procAnswer lib r d).2 :=
      ⟨h.list, hn, hq, rfl⟩
    rw [← hn]
    by_cases hc : (procAnswer lib r d).1 = true
    · rw [if_pos hc, answered, ends_bind, ends_request (hdec.at hg)]
      by_cases hp : (procAnswer lib r d).2.type.toInt = DNS_T_PTR
      · rw [if_pos hp]
        cases (procAnswer lib r d).2.name with
        | none => exact hdec.complete hg _ _
        | some name => exact hdec.forward hg name _
      · rw [if_neg hp]
        exact hdec.complete hg _ _
    · rw [if_neg hc]
      exact hdec.complete hg _ _

/-- The datagram answers the request: it comes from a nameserver, with the id of
the request, and its one question is the name that the request asks for. -/
structure Answers (lib : Reslib) (s : DnsEvloop) (d : DnsDatagram) (r : DnsReslist) : Prop where
  server : ∃ srv ∈ s.nsaddrList, srv.Serves d.lsin
  id : d.header.id = r.id
  single : d.header.qdcount = 1
  question : ∃ n name, lib.dnExpand d DNS_HEADER_SIZE (DNS_RES_HOSTLEN + 1) = (n, name) ∧ 0 < n ∧
    name.lower = r.queryname.lower

theorem checkQuestion_eq_true {d : DnsDatagram} (h : checkQuestion lib r d = true) :
    d.header.qdcount = 1 ∧ ∃ n name, lib.dnExpand d DNS_HEADER_SIZE (DNS_RES_HOSTLEN + 1) = (n, name) ∧ 0 < n ∧
      name.lower = r.queryname.lower := by
  unfold checkQuestion at h
  simp only [Bool.and_eq_true, decide_eq_true_eq, CString.strcasecmp_eq_zero] at h
  exact ⟨h.1.1, _, _, rfl, h.1.2, h.2⟩

/-- Looking for a nameserver changes nothing of the requests. -/
theorem resOurserver_view (s : DnsEvloop) (inp : SockaddrStorage) : (s.resOurserver inp).2.view = s.view := by
  unfold resOurserver
  cases s.nsaddrList.findIdx? fun srv => srv.serves inp <;> rfl

theorem exists_of_resOurserver {inp : SockaddrStorage} (h : (s.resOurserver inp).1 = true) :
    ∃ srv ∈ s.nsaddrList, srv.Serves inp := by
  unfold resOurserver at h
  cases hsrv : s.nsaddrList.findIdx? fun srv => srv.serves inp with
  | none =>
    rw [hsrv] at h
    cases h
  | some ns =>
    obtain ⟨hlt, hserves, -⟩ := List.findIdx?_eq_some_iff_getElem.1 hsrv
    exact ⟨_, List.getElem_mem hlt, SockaddrStorage.serves_iff.1 hserves⟩

theorem Ended.congr {s₁ : DnsEvloop} (h : Ended s₁ xs ys s') (hv : s₁.view = s.view) : Ended s xs ys s' := by
  obtain ⟨hsteps, hadded⟩ := h
  rw [hv] at hsteps
  exact ⟨hsteps, hadded⟩

/-- **A datagram** leaves the requests as they are, or one that it answers
comes to its end. -/
theorem resReadSingleReply_spec (hg : s.view.Good) (d : DnsDatagram) (hfits : (Op.datagram d).Fits lib s) :
    Ends (· = .noId) (resReadSingleReply lib d) s fun _ s' => s'.view = s.view ∨
      ∃ xs r ys, s.At xs r ys ∧ Answers lib s d r ∧ Ended s xs ys s' := by
  rw [resReadSingleReply, ends_bind, ends_get]
  by_cases hrc : d.rc ≤ DNS_HEADER_SIZE
  · rw [if_pos hrc]
    exact Or.inl rfl
  rw [if_neg hrc]
  cases hid : s.findId d.header.id with
  | none => exact Or.inl rfl
  | some r =>
    have hmem : r ∈ s.requestList := List.mem_of_find?_eq_some hid
    have hrid : r.id = d.header.id := by simpa using List.find?_some hid
    obtain ⟨xs, ys, hat⟩ := exists_at hg.toApart hmem
    have hv := resOurserver_view s d.lsin
    have hat' : (s.resOurserver d.lsin).2.At xs r ys := hat.congr (congrArg DnsRequests.list hv)
    dsimp only
    rw [ends_bind, ends_set]
    by_cases hours : (s.resOurserver d.lsin).1 = true
    · rw [if_pos hours]
      by_cases hq : checkQuestion lib r d = true
      · rw [if_pos hq]
        have hhost := fun hrcode hancount => hfits r ⟨not_le.1 hrc, hid, hours, hq, hrcode, hancount⟩
        refine (handleReply_spec (hv ▸ hg.toApart) hat' d (hg.stable r hmem).fits hhost).mono fun _ s' h => Or.inr ⟨xs, r, ys, hat, ?_, h.congr hv⟩
        obtain ⟨hone, hname⟩ := checkQuestion_eq_true hq
        exact ⟨exists_of_resOurserver hours, hrid.symm, hone, hname⟩
      · rw [if_neg hq]
        exact Or.inl hv
    · rw [if_neg hours]
      exact Or.inl hv

/-- **A name that does not fit** is copied past the end of its block. -/
theorem resReadSingleReply_overflow (hg : s.view.Good) {d : DnsDatagram} (hno : ¬ (Op.datagram d).Fits lib s) :
    resReadSingleReply lib d s = .error .overflow := by
  obtain ⟨r, hr⟩ := not_forall.1 hno
  obtain ⟨hdec, hlong⟩ := Classical.not_imp.1 hr
  have hmem := List.mem_of_find?_eq_some hdec.id
  have hlong : ¬ _ := mt (procAnswer_fits_iff (hg.stable r hmem).fits).1 hlong
  obtain ⟨xs, ys, hat⟩ := exists_at hg.toApart hmem
  have hv := resOurserver_view s d.lsin
  have hat' : (s.resOurserver d.lsin).2.At xs r ys := hat.congr (congrArg DnsRequests.list hv)
  have hrcode : ¬ (d.header.rcode ≠ DNS_NO_ERRORS ∨ d.header.ancount = 0) :=
    not_or.2 ⟨not_not.2 hdec.rcode, hdec.answers⟩
  have hends : Ends (· = .overflow) (resReadSingleReply lib d) s fun _ _ => False := by
    rw [resReadSingleReply, ends_bind, ends_get, if_neg (not_le.2 hdec.long), hdec.id]
    dsimp only
    rw [ends_bind, ends_set, if_pos hdec.server, if_pos hdec.question, handleReply, if_neg hrcode, ends_bind,
      ends_request hat', ends_bind, ends_update hat' (procAnswer_keeps r d).1, if_neg hlong, ends_throw]
  cases hrun : resReadSingleReply lib d s with
  | ok x => exact (hends.of_ok hrun).elim
  | error e => exact congrArg Except.error (hends.of_error hrun)

/-! ## The loops over the requests -/

/-- What the body of a loop does with the request before `ys`: those after it
are left, and `m` goes down with what comes behind them. -/
def Visited (m : DnsEvloop → ℕ) (s : DnsEvloop) (ys : List DnsReslist) (s' : DnsEvloop) : Prop :=
  DnsSteps s.view s'.view ∧ ∃ xs added, s'.requestList = xs ++ ys ++ added ∧ added.length + m s' ≤ m s

@[simp] theorem foreachSafe_none {β : Type} (body : Addr → β → Dns β) (fuel : ℕ) (acc : β) :
    foreachSafe body fuel none acc = pure acc := by cases fuel <;> rfl

/-- **A loop over the requests**, from the first of `ys`, with steps for them
and for what may come behind them. -/
theorem foreachSafe_spec {β : Type} {body : Addr → β → Dns β} (m : DnsEvloop → ℕ)
    (hbody : ∀ s xs r ys acc, s.view.Good → s.At xs r ys →
      Ends (· = .noId) (body r.node acc) s fun _ s' => Visited m s ys s')
    (fuel : ℕ) (hg : s.view.Good) (hlist : s.requestList = xs ++ ys) (hfuel : ys.length + m s ≤ fuel) (acc : β) :
    Ends (· = .noId) (foreachSafe body fuel (ys.head?.map DnsReslist.node) acc) s fun _ s' => DnsSteps s.view s'.view := by
  induction fuel generalizing s xs ys acc with
  | zero =>
    obtain rfl : ys = [] := List.length_eq_zero_iff.1 (by omega)
    exact .nil
  | succ fuel ih =>
    cases ys with
    | nil => exact .nil
    | cons r ys =>
      have hat := at_of_apart hg.toApart hlist
      rw [List.head?_cons, Option.map_some, foreachSafe, ends_bind, ends_get, hat.next]
      refine (hbody s xs r ys acc hg hat).bind fun acc' s₁ h => ?_
      obtain ⟨hsteps, xs', added, hlist', hpend⟩ := h
      rw [List.length_cons] at hfuel
      cases ys with
      | nil =>
        rw [List.head?_nil, Option.map_none, foreachSafe_none]
        exact hsteps
      | cons r' ys =>
        have hlen : ((r' :: ys) ++ added).length + m s₁ ≤ fuel := by
          rw [List.length_append]
          omega
        refine (ih (hg.steps hsteps) (hlist'.trans (List.append_assoc ..)) hlen acc').mono fun _ s₂ h₂ => ?_
        exact hsteps.trans h₂

theorem timedOut_spec (now : ℤ) (hg : s.view.Good) (h : s.At xs r ys) :
    Ends (· = .noId) (timedOut lib now r.node) s fun _ s' => Visited pending s ys s' := by
  let r₁ : DnsReslist := { r with retries := r.retries - 1 }
  let s₁ : DnsEvloop := { s with requestList := xs ++ r₁ :: ys }
  have h₁ : s₁.At xs r₁ ys := h.changed rfl rfl
  rw [timedOut, ends_bind, ends_update h rfl, ends_bind]
  refine Iff.mpr (@ends_request _ s₁ xs ys r₁ _ h₁) ?_
  by_cases hr : r.retries - 1 ≤ 0
  · rw [if_pos hr, ends_bind]
    have hdec : Decoded s xs r ys s₁ r₁ := ⟨h.list, rfl, rfl, rfl⟩
    refine Ends.mono (complete_spec (hdec.apart hg.toApart) h₁ none .timeout) fun _ s' hs => ?_
    have hsteps := hs.steps h.list rfl rfl
    obtain ⟨result, reply, added, hlist, hpend, -⟩ := hs
    exact ⟨hsteps, xs, added, hlist, hpend.le⟩
  · rw [if_neg hr, ends_bind, ends_modify, ends_bind]
    let r₂ : DnsReslist := { r₁ with sentat := now, timeout := r.timeout + r.timeout }
    let s₂ : DnsEvloop := { s₁ with
      timeoutCount := Function.update s.timeoutCount r.lastns (s.timeoutCount r.lastns + 1)
      requestList := xs ++ r₂ :: ys }
    have h₂ : s₂.At xs r₂ ys := h.changed rfl rfl
    refine Iff.mpr (@ends_update _ { s₁ with timeoutCount := _ } xs ys r₁ _ _ (h₁.congr rfl) rfl) ?_
    have hst := hg.stable r h.mem
    rw [ends_bind]
    refine Ends.mono (@resendQuery_spec s₂ xs ys r₂ lib h₂ ⟨hst.named, hst.number, hst.fits, hst.room⟩) fun _ s' hs => ?_
    obtain ⟨hc, r', packets, hsends, hv⟩ := hs
    have hids : ∀ q ∈ s.requestList, ∃ q' ∈ s₂.requestList, q'.id = q.id := fun q hq => by
      rw [h.list] at hq
      rw [h₂.list]
      rcases List.mem_append.1 hq with hq | hq
      · exact ⟨q, List.mem_append_left _ hq, rfl⟩
      · rcases List.mem_cons.1 hq with rfl | hq
        · exact ⟨r₂, by simp, rfl⟩
        · exact ⟨q, by simp [hq], rfl⟩
    refine ⟨.one ?_, xs ++ [r'], [], ?_, ?_⟩
    · rw [hv]
      exact .again xs ys r r' packets _ _ _ h.list (hsends.mono hids)
    · rw [show s'.requestList = xs ++ r' :: ys from congrArg DnsRequests.list hv, List.append_nil, List.append_assoc]
      rfl
    · rw [List.length_nil, Nat.zero_add, DnsEvloop.pending, hc]
      exact le_rfl

theorem visited_self (m : DnsEvloop → ℕ) (h : s.At xs r ys) : Visited m s ys s :=
  ⟨.nil, xs ++ [r], [], by rw [h.list, List.append_nil, List.append_assoc]; rfl, by simp⟩

theorem timeoutBody_spec (now : ℤ) (hg : s.view.Good) (h : s.At xs r ys) (nextTime : ℤ) :
    Ends (· = .noId) (timeoutBody lib now r.node nextTime) s fun _ s' => Visited pending s ys s' := by
  rw [timeoutBody, ends_bind, ends_request h]
  dsimp only
  have hpure : ∀ removed s', Visited pending s ys s' → Ends (· = .noId)
      (if removed = true then pure nextTime
        else if nextTime = 0 ∨ r.sentat + r.timeout < nextTime then pure (r.sentat + r.timeout)
        else pure nextTime : Dns ℤ) s' fun _ s'' => Visited pending s ys s'' := fun removed s' hv => by
    split_ifs <;> exact hv
  rw [timeoutRequest]
  by_cases hle : r.sentat + r.timeout ≤ now
  · rw [if_pos hle]
    exact (timedOut_spec now hg h).bind hpure
  · rw [if_neg hle]
    exact hpure false s (visited_self _ h)

theorem timeoutQueryList_spec (now : ℤ) (hg : s.view.Good) :
    Ends (· = .noId) (timeoutQueryList lib now) s fun _ s' => DnsSteps s.view s'.view := by
  rw [timeoutQueryList, ends_bind, ends_get, ends_bind]
  exact foreachSafe_spec pending (fun s xs r ys acc hg h => timeoutBody_spec now hg h acc) _ hg
    (List.nil_append s.requestList).symm le_rfl 0

theorem deleteBody_spec (query : Addr) (h : s.At xs r ys) :
    Ends (· = .noId) (deleteBody query r.node ()) s fun _ s' => Visited (fun _ => 0) s ys s' := by
  rw [deleteBody, ends_bind, ends_request h]
  by_cases hq : query = r.query.ptr
  · rw [if_pos hq, ends_bind, ends_modify]
    refine Iff.mpr (ends_remRequest (h.congr rfl)) ⟨.one (.delete xs ys r h.list), xs, [], ?_, ?_⟩
    · exact (List.append_nil _).symm
    · exact (Nat.zero_add _).le
  · rw [if_neg hq]
    exact visited_self (fun _ => 0) h

theorem deleteQueries_spec (query : Addr) (hg : s.view.Good) :
    Ends (· = .noId) (Dns.deleteQueries query) s fun _ s' => DnsSteps s.view s'.view := by
  rw [Dns.deleteQueries, ends_bind, ends_get]
  exact foreachSafe_spec (fun _ => 0) (fun s xs r ys _ _ h => deleteBody_spec query h) _ hg
    (List.nil_append s.requestList).symm le_rfl ()

/-- **What the resolver does is steps of its requests**, and it stops only
where `query_name` finds no id, if no name of a host is copied past its block. -/
theorem run_spec (op : Op) (hg : s.view.Good) (hfits : op.Fits lib s) :
    Ends (· = .noId) (op.run lib) s fun _ s' => DnsSteps s.view s'.view := by
  cases op with
  | submit submission =>
    refine (submit_spec hg.toApart submission).mono fun _ s' h => ?_
    obtain ⟨-, r, hsub⟩ := h
    exact hsub.steps
  | datagram d =>
    refine (resReadSingleReply_spec hg d hfits).mono fun _ s' h => ?_
    rcases h with hv | ⟨xs, r, ys, -, -, hsteps, -⟩
    · rw [hv]
      exact .nil
    · exact hsteps
  | tick now =>
    rw [Op.run, ends_bind, ends_modify, ends_bind]
    exact timeoutQueryList_spec now hg
  | deleteQueries query => exact deleteQueries_spec query hg
  | synchronize now => exact .nil

variable (lib)

/-- A step that gets to its end. -/
def step (s : DnsEvloop) (op : Op) : Option (Unit × DnsEvloop) := (op.run lib s).toOption

/-- The runs of the resolver in which no name of a host is copied past its block. -/
abbrev Runs : DnsEvloop → List (Op × Unit) → DnsEvloop → Prop := Run (step lib) fun s op => op.Fits lib s

variable {lib}

theorem run_of_step {op : Op} {u : Unit} (h : step lib s op = some (u, s')) : op.run lib s = .ok (u, s') := by
  unfold step at h
  cases hrun : op.run lib s with
  | ok r =>
    rw [hrun] at h
    exact congrArg Except.ok (Option.some.inj h)
  | error e =>
    rw [hrun] at h
    cases h

/-- **Runs.** What is so of no requests, and is kept by every step of them, is
so of the requests in every state reached. -/
theorem runs_keep {P : DnsRequests → Prop} {tr : List (Op × Unit)} {s₀ : DnsEvloop} (hg : s₀.view.Good)
    (hP : ∀ v v', v.Good → P v → DnsStep v v' → P v') (h₀ : P s₀.view) (h : Runs lib s₀ tr s) : s.view.Good ∧ P s.view := by
  refine Run.invariant (I := fun s => s.view.Good ∧ P s.view) ⟨hg, h₀⟩ (fun {s op u s'} hI hfits hstep => ?_) h
  have hsteps := (run_spec op hI.1 hfits).of_ok (run_of_step hstep)
  exact hsteps.keeps (P := fun v => v.Good ∧ P v) (fun v v' hv hs => ⟨hv.1.step hs, hP v v' hv.1 hv.2 hs⟩) hI

end Dns

end Mowgli
