import Mowgli.Dns.EvloopRes.Once
/-!
# Replies go to the requests that they answer

The ids of the requests that a packet was generated for are apart, so that
there is one request at most for a reply, and each of them asks for what
was in its last packet.
-/

namespace Mowgli

namespace DnsRequests

/-- The last packet that was generated for a request. -/
def lastPacket (v : DnsRequests) (a : Addr) : Option DnsPacket := v.packets.reverse.find? fun p => p.request = a

/-- A packet was generated for the request. -/
def Generated (v : DnsRequests) (r : DnsReslist) : Prop := ∃ p ∈ v.packets, p.request = r.node

/-- The request asks for what was in its last packet, with the id of that, or
had none yet. -/
inductive Asks (v : DnsRequests) (r : DnsReslist) : Prop
  | unsent (sends : r.sends = 0) (none : ¬ v.Generated r)
  | sent (sends : 0 < r.sends) (p : DnsPacket) (last : v.lastPacket r.node = some p) (id : p.id = r.id)
    (name : p.queryname = r.queryname)

/-- Ids that are apart, for requests that ask what they asked. -/
structure Matching (v : DnsRequests) : Prop where
  ids : ∀ r ∈ v.list, ∀ r' ∈ v.list, 0 < r.sends → 0 < r'.sends → r.id = r'.id → r.node = r'.node
  old : ∀ p ∈ v.packets, p.request < v.allocated
  asks : ∀ r ∈ v.list, v.Asks r

variable {v v' : DnsRequests} {xs ys : List DnsReslist} {r r' : DnsReslist} {qy : DnsQuery} {packets : List DnsPacket}

theorem lastPacket_snoc (v : DnsRequests) (p : DnsPacket) (a : Addr) :
    lastPacket { v with packets := v.packets ++ [p] } a = if p.request = a then some p else v.lastPacket a := by
  unfold lastPacket
  rw [List.reverse_append, List.reverse_singleton, List.singleton_append, List.find?_cons]
  split_ifs with h
  · simp [h]
  · simp [h]

theorem lastPacket_some {a : Addr} {p : DnsPacket} (h : v.lastPacket a = some p) : p ∈ v.packets ∧ p.request = a := by
  unfold lastPacket at h
  exact ⟨List.mem_reverse.1 (List.mem_of_find?_eq_some h), by simpa using List.find?_some h⟩

/-- Requests with packets have been sent. -/
theorem Asks.sends_pos (h : v.Asks r) (hg : v.Generated r) : 0 < r.sends := by
  cases h with
  | unsent _ none => exact absurd hg none
  | sent sends _ _ _ _ => exact sends

/-- Fewer requests match. -/
theorem Matching.sublist (h : v.Matching) {list : List DnsReslist} (hsub : ∀ q ∈ list, q ∈ v.list) (submitted : ℕ)
    (calls : List DnsCall) (deleted : List DnsQuery) :
    Matching { v with list := list, submitted := submitted, calls := calls, deleted := deleted } :=
  ⟨fun q hq q' hq' => h.ids q (hsub q hq) q' (hsub q' hq'), h.old, fun q hq => by
    cases h.asks q (hsub q hq) with
    | unsent h0 hnone => exact .unsent h0 hnone
    | sent hpos p hlast hid hname => exact .sent hpos p hlast hid hname⟩

theorem mem_middle {q : DnsReslist} : q ∈ xs ++ r :: ys ↔ q = r ∨ q ∈ xs ++ ys := by
  simp only [List.mem_append, List.mem_cons]
  tauto

/-- **Asking keeps the ids apart**, where the new id is apart from those of
the other requests. -/
theorem Matching.sends (h : v.Matching) (hap : v.Apart) (hlist : v.list = xs ++ r :: ys)
    (hs : Sends (xs ++ ys) v.packets r r' packets) : Matching { v with list := xs ++ r' :: ys, packets := packets } := by
  cases hs with
  | nothing =>
    rw [← hlist]
    exact h
  | packet id lastns fresh =>
    have hmem : r ∈ v.list := by rw [hlist]; simp
    have hother : ∀ q ∈ xs ++ ys, q ∈ v.list ∧ q.node ≠ r.node := fun q hq => by
      refine ⟨by rw [hlist]; exact mem_middle.2 (Or.inr hq), fun heq => ?_⟩
      have hn := hap.nodup
      rw [hlist, List.map_append, List.map_cons, List.nodup_middle, ← List.map_append] at hn
      exact (List.nodup_cons.1 hn).1 (heq ▸ List.mem_map_of_mem hq)
    refine ⟨fun q hq q' hq' hpos hpos' hid => ?_, fun p hp => ?_, fun q hq => ?_⟩
    · rcases mem_middle.1 hq with rfl | hq
      · rcases mem_middle.1 hq' with rfl | hq'
        · rfl
        · exact absurd hid.symm (fresh q' hq')
      · rcases mem_middle.1 hq' with rfl | hq'
        · exact absurd hid (fresh q hq)
        · exact h.ids q (hother q hq).1 q' (hother q' hq').1 hpos hpos' hid
    · rcases List.mem_append.1 hp with hp | hp
      · exact h.old p hp
      · rw [List.mem_singleton.1 hp]
        exact hap.old r hmem
    · rcases mem_middle.1 hq with rfl | hq
      · exact .sent (Nat.succ_pos _) ⟨r.node, id, r.queryname⟩ ((lastPacket_snoc v _ _).trans (if_pos rfl)) rfl rfl
      · obtain ⟨hmem', hne⟩ := hother q hq
        cases h.asks q hmem' with
        | unsent h0 hnone =>
          refine .unsent h0 ?_
          rintro ⟨p, hp, hpq⟩
          rcases List.mem_append.1 hp with hp | hp
          · exact hnone ⟨p, hp, hpq⟩
          · rw [List.mem_singleton.1 hp] at hpq
            exact hne hpq.symm
        | sent hpos p hlast hid hname =>
          exact .sent hpos p ((lastPacket_snoc v _ _).trans ((if_neg (Ne.symm hne)).trans hlast)) hid hname

/-- A new request asks for its own. -/
theorem Matching.new (h : v.Matching) (hap : v.Apart) (new : v.New qy r packets) (submitted : ℕ) :
    Matching { v with list := v.list ++ [r], allocated := v.allocated + 1, submitted := submitted,
                      packets := packets } := by
  obtain ⟨r₀, hn, hq, h0, hst, hs⟩ := new.sends
  -- first without a packet, at the end of the list
  have hap₀ := hap.snoc ⟨⟨r₀, hn, hq, h0, hst, .nothing⟩⟩ submitted v.calls
  have h₀ : Matching { v with list := v.list ++ [r₀], allocated := v.allocated + 1, submitted := submitted } := by
    refine ⟨fun q hq q' hq' hpos hpos' hid => ?_, fun p hp => (h.old p hp).trans (Nat.lt_succ_self _), fun q hq => ?_⟩
    · have hold : ∀ q ∈ v.list ++ [r₀], 0 < q.sends → q ∈ v.list := fun q hq hpos => by
        rcases List.mem_append.1 hq with hq | hq
        · exact hq
        · rw [List.mem_singleton.1 hq, h0] at hpos
          exact absurd hpos (lt_irrefl 0)
      exact h.ids q (hold q hq hpos) q' (hold q' hq' hpos') hpos hpos' hid
    · rcases List.mem_append.1 hq with hq | hq
      · cases h.asks q hq with
        | unsent h0 hnone => exact .unsent h0 hnone
        | sent hpos p hlast hid hname => exact .sent hpos p hlast hid hname
      · rw [List.mem_singleton.1 hq]
        refine .unsent h0 ?_
        rintro ⟨p, hp, hpr⟩
        exact (h.old p hp).ne (hpr.trans hn)
  exact h₀.sends hap₀ rfl (by rw [List.append_nil]; exact hs)

/-- What a request is asked again with is no matter. -/
theorem Matching.touched (h : v.Matching) (hlist : v.list = xs ++ r :: ys) (retries sentat timeout : ℤ) :
    Matching { v with list := xs ++ { r with retries := retries, sentat := sentat, timeout := timeout } :: ys } := by
  have hback : ∀ q ∈ xs ++ { r with retries := retries, sentat := sentat, timeout := timeout } :: ys,
      ∃ q' ∈ v.list, q'.node = q.node ∧ q'.id = q.id ∧ q'.sends = q.sends ∧ q'.queryname = q.queryname := fun q hq => by
    rw [hlist]
    rcases mem_middle.1 hq with rfl | hq
    · exact ⟨r, mem_middle.2 (Or.inl rfl), rfl, rfl, rfl, rfl⟩
    · exact ⟨q, mem_middle.2 (Or.inr hq), rfl, rfl, rfl, rfl⟩
  refine ⟨fun q hq q' hq' hpos hpos' hid => ?_, h.old, fun q hq => ?_⟩
  · obtain ⟨p, hp, hn, hi, hs, -⟩ := hback q hq
    obtain ⟨p', hp', hn', hi', hs', -⟩ := hback q' hq'
    rw [← hn, ← hn']
    exact h.ids p hp p' hp' (hs ▸ hpos) (hs' ▸ hpos') (by rw [hi, hi', hid])
  · obtain ⟨p, hp, hn, hi, hs, hq⟩ := hback q hq
    cases h.asks p hp with
    | unsent h0 hnone => exact .unsent (hs ▸ h0) fun hgen => hnone (by rw [Generated, hn]; exact hgen)
    | sent hpos pk hlast hid hname => exact .sent (hs ▸ hpos) pk (hn ▸ hlast) (hid.trans hi) (hname.trans hq)

/-- **Steps keep the ids apart.** -/
theorem Matching.step (h : v.Matching) (hg : v.Good) (hs : DnsStep v v') : v'.Matching := by
  cases hs with
  | submit query r packets new => exact h.new hg.toApart new _
  | again xs ys r r' packets retries sentat timeout hlist hsends =>
    have hap : Apart { v with list := xs ++ { r with retries := retries, sentat := sentat, timeout := timeout } :: ys } := by
      refine hg.toApart.changed hlist ?_ rfl rfl
      rfl
    refine (h.touched hlist retries sentat timeout).sends hap rfl (hsends.sublist fun q hq => ?_)
    rw [hlist]
    exact mem_middle.2 (Or.inr hq)
  | forward xs ys r r' packets hlist new =>
    have hsub : ∀ q ∈ xs ++ ys, q ∈ v.list := fun q hq => by rw [hlist]; exact mem_middle.2 (Or.inr hq)
    have hleft : Good { v with list := xs ++ ys } := hg.sublist (by rw [hlist]; simp) rfl rfl
    exact (h.sublist hsub v.submitted v.calls v.deleted).new hleft.toApart new _
  | complete xs ys r result reply hlist =>
    exact h.sublist (fun q hq => by rw [hlist]; exact mem_middle.2 (Or.inr hq)) _ _ _
  | delete xs ys r hlist =>
    exact h.sublist (fun q hq => by rw [hlist]; exact mem_middle.2 (Or.inr hq)) _ _ _

end DnsRequests

namespace Dns

open DnsEvloop

variable {lib : Reslib} {nsaddrList : List SockaddrStorage} {domain : CString} {now : ℤ} {random : List UInt32}
variable {sendto : ℕ → Bool} {callbacks : List (List DnsSubmission)} {tr : List (Op × Unit)} {s : DnsEvloop}

end Dns

end Mowgli
