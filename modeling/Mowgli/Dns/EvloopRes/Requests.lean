import Mathlib.Data.List.Nodup
import Mowgli.Dns.EvloopRes
/-!
# What becomes of the requests

Apart from when it sends and to whom, all that the resolver does to its
requests is one of five things: it takes a new one, asks again, puts a
lookup of the name in the place of a lookup of the address, calls back and
removes, or removes. `DnsStep` says so of the requests alone; the functions
of the resolver are sequences of such steps.
-/

namespace Mowgli

open Prog

/-- The requests, and what came of those that are no longer there. -/
structure DnsRequests where
  domain : CString
  list : List DnsReslist
  allocated : Addr
  submitted : ℕ
  calls : List DnsCall
  deleted : List DnsQuery
  packets : List DnsPacket

/-- The name that `do_query_name` asks for. -/
def hostName (domain name : CString) : CString :=
  (addLocalDomain domain (name.strlcpy (DNS_RES_HOSTLEN + 1)) DNS_RES_HOSTLEN).strlcpy (DNS_RES_HOSTLEN + 1)

/-- A request that would ask for the same name again. -/
structure DnsReslist.Stable (domain : CString) (r : DnsReslist) : Prop where
  named : ∃ name, r.name = some name ∧
    (r.type.toInt = DNS_T_A ∨ r.type.toInt = DNS_T_AAAA → hostName domain name = r.queryname)
  number : r.type.toInt = DNS_T_PTR → ∀ q, r.addr.queryname = some q → q = r.queryname
  fits : r.nameFits = true
  /-- There is room for the name of a host that comes for an address. -/
  room : (r.addr.queryname).isSome → r.nameSize = DNS_RES_HOSTLEN + 1

/-- What `query_name` does for a request: it sends nothing, or a packet with
an id that none of the requests in `list` has. -/
inductive Sends (list : List DnsReslist) (packets : List DnsPacket) (r : DnsReslist) :
    DnsReslist → List DnsPacket → Prop
  | nothing : Sends list packets r r packets
  | packet (id : UInt16) (lastns : ℕ) (fresh : ∀ r' ∈ list, r'.id ≠ id) :
    Sends list packets r { r with id := id, sends := r.sends + 1, lastns := lastns }
      (packets ++ [⟨r.node, id, r.queryname⟩])

/-- A new request for a query, and the packets after it. -/
structure DnsRequests.New (v : DnsRequests) (query : DnsQuery) (r : DnsReslist) (packets : List DnsPacket) : Prop where
  sends : ∃ r₀ : DnsReslist, r₀.node = v.allocated ∧ r₀.query = query ∧ r₀.sends = 0 ∧ r₀.Stable v.domain ∧
    Sends v.list v.packets r₀ r packets

/-- What the resolver does to its requests. -/
inductive DnsStep (v : DnsRequests) : DnsRequests → Prop
  | submit (query : Addr) (r : DnsReslist) (packets : List DnsPacket) (new : v.New ⟨query, v.submitted⟩ r packets) :
    DnsStep v { v with list := v.list ++ [r], allocated := v.allocated + 1, submitted := v.submitted + 1,
                       packets := packets }
  | again (xs ys : List DnsReslist) (r r' : DnsReslist) (packets : List DnsPacket) (retries sentat timeout : ℤ)
    (hlist : v.list = xs ++ r :: ys)
    (hsends : Sends v.list v.packets { r with retries := retries, sentat := sentat, timeout := timeout } r' packets) :
    DnsStep v { v with list := xs ++ r' :: ys, packets := packets }
  | forward (xs ys : List DnsReslist) (r r' : DnsReslist) (packets : List DnsPacket) (hlist : v.list = xs ++ r :: ys)
    (new : DnsRequests.New { v with list := xs ++ ys } r.query r' packets) :
    DnsStep v { v with list := xs ++ ys ++ [r'], allocated := v.allocated + 1, packets := packets }
  | complete (xs ys : List DnsReslist) (r : DnsReslist) (result : DnsResult) (reply : Option DnsReply)
    (hlist : v.list = xs ++ r :: ys) :
    DnsStep v { v with list := xs ++ ys, calls := v.calls ++ [⟨r.query, result, reply⟩] }
  | delete (xs ys : List DnsReslist) (r : DnsReslist) (hlist : v.list = xs ++ r :: ys) :
    DnsStep v { v with list := xs ++ ys, deleted := v.deleted ++ [r.query] }

/-- Steps, one after another. -/
inductive DnsSteps (v : DnsRequests) : DnsRequests → Prop
  | nil : DnsSteps v v
  | snoc {v' v'' : DnsRequests} (h : DnsSteps v v') (hs : DnsStep v' v'') : DnsSteps v v''

/-- Submissions, one after another, with the requests that are made. -/
inductive Submits (v : DnsRequests) : List DnsReslist → DnsRequests → Prop
  | nil : Submits v [] v
  | snoc {v' : DnsRequests} {added : List DnsReslist} (query : Addr) (r : DnsReslist) (packets : List DnsPacket)
    (h : Submits v added v') (new : v'.New ⟨query, v'.submitted⟩ r packets) :
    Submits v (added ++ [r]) { v' with list := v'.list ++ [r], allocated := v'.allocated + 1,
                                       submitted := v'.submitted + 1, packets := packets }

theorem DnsSteps.one {v v' : DnsRequests} (h : DnsStep v v') : DnsSteps v v' := .snoc .nil h

theorem DnsSteps.trans {v v' v'' : DnsRequests} (h : DnsSteps v v') (h' : DnsSteps v' v'') : DnsSteps v v'' := by
  induction h' with
  | nil => exact h
  | snoc _ hs ih => exact .snoc ih hs

/-- What every step keeps, steps keep. -/
theorem DnsSteps.keeps {v v' : DnsRequests} {P : DnsRequests → Prop} (h : DnsSteps v v')
    (hP : ∀ v v', P v → DnsStep v v' → P v') (h₀ : P v) : P v' := by
  induction h with
  | nil => exact h₀
  | snoc _ hs ih => exact hP _ _ ih hs

/-- The requests each have an address of their own, that was allocated. -/
structure DnsRequests.Apart (v : DnsRequests) : Prop where
  nodup : (v.list.map DnsReslist.node).Nodup
  old : ∀ r ∈ v.list, r.node < v.allocated

/-- They are apart, and would each ask again for what they asked for. -/
structure DnsRequests.Good (v : DnsRequests) : Prop extends v.Apart where
  stable : ∀ r ∈ v.list, r.Stable v.domain

namespace Sends

variable {list : List DnsReslist} {packets packets' : List DnsPacket} {r r' : DnsReslist}

theorem node (h : Sends list packets r r' packets') : r'.node = r.node := by cases h <;> rfl

theorem query (h : Sends list packets r r' packets') : r'.query = r.query := by cases h <;> rfl

theorem stable {domain : CString} (h : Sends list packets r r' packets') (hs : r.Stable domain) : r'.Stable domain := by
  cases h with
  | nothing => exact hs
  | packet id lastns fresh => exact ⟨hs.named, hs.number, hs.fits, hs.room⟩

theorem mono {list' : List DnsReslist} (h : Sends list packets r r' packets')
    (hsub : ∀ q ∈ list', ∃ q' ∈ list, q'.id = q.id) : Sends list' packets r r' packets' := by
  cases h with
  | nothing => exact .nothing
  | packet id lastns fresh =>
    refine .packet id lastns fun q hq => ?_
    obtain ⟨q', hq', hid⟩ := hsub q hq
    rw [← hid]
    exact fresh q' hq'

theorem sublist {list' : List DnsReslist} (h : Sends list packets r r' packets') (hsub : ∀ q ∈ list', q ∈ list) :
    Sends list' packets r r' packets' :=
  h.mono fun q hq => ⟨q, hsub q hq, rfl⟩

end Sends

namespace DnsRequests

variable {v v' : DnsRequests} {qy : DnsQuery} {r : DnsReslist} {packets : List DnsPacket}

theorem New.node (h : v.New qy r packets) : r.node = v.allocated := by
  obtain ⟨r₀, hn, -, -, -, hs⟩ := h.sends
  rw [hs.node, hn]

theorem New.query (h : v.New qy r packets) : r.query = qy := by
  obtain ⟨r₀, -, hq, -, -, hs⟩ := h.sends
  rw [hs.query, hq]

theorem New.stable (h : v.New qy r packets) : r.Stable v.domain := by
  obtain ⟨r₀, -, -, -, hst, hs⟩ := h.sends
  exact hs.stable hst

theorem New.sublist {list : List DnsReslist} (h : v.New qy r packets) (hsub : ∀ q ∈ list, q ∈ v.list) :
    New { v with list := list } qy r packets := by
  obtain ⟨r₀, hn, hq, h0, hst, hs⟩ := h.sends
  exact ⟨r₀, hn, hq, h0, hst, hs.sublist hsub⟩

/-- A new request is apart from the others. -/
theorem Apart.snoc (h : v.Apart) (new : v.New qy r packets) (submitted : ℕ) (calls : List DnsCall) :
    Apart { v with list := v.list ++ [r], allocated := v.allocated + 1, submitted := submitted, calls := calls,
                   packets := packets } where
  nodup := by
    rw [List.map_append, List.nodup_append]
    refine ⟨h.nodup, List.nodup_singleton _, fun a ha b hb => ?_⟩
    obtain ⟨q, hq, rfl⟩ := List.mem_map.1 ha
    obtain rfl := List.mem_singleton.1 hb
    rw [new.node]
    exact (h.old q hq).ne
  old := fun q hq => by
    rcases List.mem_append.1 hq with hq | hq
    · exact (h.old q hq).trans (Nat.lt_succ_self _)
    · rw [List.mem_singleton.1 hq, new.node]
      exact Nat.lt_succ_self _

theorem Good.snoc (h : v.Good) (new : v.New qy r packets) (submitted : ℕ) (calls : List DnsCall) :
    Good { v with list := v.list ++ [r], allocated := v.allocated + 1, submitted := submitted, calls := calls,
                  packets := packets } where
  toApart := h.toApart.snoc new submitted calls
  stable := fun q hq => by
    rcases List.mem_append.1 hq with hq | hq
    · exact h.stable q hq
    · rw [List.mem_singleton.1 hq]
      exact new.stable

/-- Fewer requests are good. -/
theorem Good.sublist (h : v.Good) (hsub : v'.list.Sublist v.list) (ha : v'.allocated = v.allocated)
    (hd : v'.domain = v.domain) : v'.Good where
  nodup := h.nodup.sublist (hsub.map _)
  old := fun q hq => ha ▸ h.old q (hsub.subset hq)
  stable := fun q hq => hd ▸ h.stable q (hsub.subset hq)

/-- A request may be changed where it is. -/
theorem Apart.changed {xs ys : List DnsReslist} {r' : DnsReslist} (h : v.Apart) (hlist : v.list = xs ++ r :: ys)
    (hn : r'.node = r.node) (hlist' : v'.list = xs ++ r' :: ys) (ha : v'.allocated = v.allocated) : v'.Apart := by
  have hmap : v'.list.map DnsReslist.node = v.list.map DnsReslist.node := by
    rw [hlist, hlist', List.map_append, List.map_append, List.map_cons, List.map_cons, hn]
  refine ⟨hmap ▸ h.nodup, fun q hq => ?_⟩
  have hmem : q.node ∈ v.list.map DnsReslist.node := hmap ▸ List.mem_map_of_mem hq
  obtain ⟨q', hq', heq⟩ := List.mem_map.1 hmem
  rw [← heq, ha]
  exact h.old q' hq'

/-- **Steps keep good requests good.** -/
theorem Good.step (h : v.Good) (hs : DnsStep v v') : v'.Good := by
  cases hs with
  | submit query r packets new => exact h.snoc new _ _
  | again xs ys r r' packets retries sentat timeout hlist hsends =>
    have hst := h.stable r (by rw [hlist]; simp)
    refine ⟨h.toApart.changed hlist hsends.node rfl rfl, fun q hq => ?_⟩
    rcases List.mem_append.1 hq with hq | hq
    · exact h.stable q (by rw [hlist]; exact List.mem_append_left _ hq)
    · rcases List.mem_cons.1 hq with rfl | hq
      · exact hsends.stable ⟨hst.named, hst.number, hst.fits, hst.room⟩
      · exact h.stable q (by rw [hlist]; simp [hq])
  | forward xs ys r r' packets hlist new =>
    have hg : Good { v with list := xs ++ ys } := h.sublist (by rw [hlist]; simp) rfl rfl
    exact hg.snoc new _ _
  | complete xs ys r result reply hlist => exact h.sublist (by rw [hlist]; simp) rfl rfl
  | delete xs ys r hlist => exact h.sublist (by rw [hlist]; simp) rfl rfl

theorem Good.steps (h : v.Good) (hs : DnsSteps v v') : v'.Good := hs.keeps (fun _ _ => Good.step) h

theorem Apart.submits {added : List DnsReslist} (h : v.Apart) (hs : Submits v added v') : v'.Apart := by
  induction hs with
  | nil => exact h
  | snoc query r packets _ new ih => exact ih.snoc new _ _

end DnsRequests

namespace Submits

variable {v v' : DnsRequests} {added xs ys : List DnsReslist} {r : DnsReslist}

theorem list (h : Submits v added v') : v'.list = v.list ++ added := by
  induction h with
  | nil => exact (List.append_nil _).symm
  | snoc query r packets _ _ ih => rw [← List.append_assoc, ← ih]

theorem steps (h : Submits v added v') : DnsSteps v v' := by
  induction h with
  | nil => exact .nil
  | snoc query r packets _ new ih => exact .snoc ih (.submit query r packets new)

theorem trans {v'' : DnsRequests} {added' : List DnsReslist} (h : Submits v added v') (h' : Submits v' added' v'') :
    Submits v (added ++ added') v'' := by
  induction h' with
  | nil =>
    rw [List.append_nil]
    exact h
  | snoc query r packets _ new ih =>
    rw [← List.append_assoc]
    exact ih.snoc query r packets new

/-- A request may be taken away before others are submitted, or after. -/
theorem drop (h : Submits v added v') (hlist : v.list = xs ++ r :: ys) :
    DnsSteps { v with list := xs ++ ys } { v' with list := xs ++ ys ++ added } := by
  induction h with
  | nil =>
    rw [List.append_nil]
    exact .nil
  | @snoc v' added query r' packets h new ih =>
    have hsub : ∀ q ∈ xs ++ ys ++ added, q ∈ v'.list := fun q hq => by
      rw [h.list, hlist]
      simp only [List.mem_append, List.mem_cons] at hq ⊢
      tauto
    rw [← List.append_assoc]
    exact ih.trans (.one (.submit query r' packets (new.sublist hsub)))

end Submits

end Mowgli
