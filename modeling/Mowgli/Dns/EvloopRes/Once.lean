import Mathlib.Data.List.Count
import Mowgli.Dns.EvloopRes.Steps
/-!
# Every submission comes to one end

A submission has a request, until the callback of its query is called or the
request is deleted. A lookup of an address that goes on as the lookup of a
name is one submission, since both are for the query that was submitted.
-/

namespace Mowgli

namespace DnsRequests

/-- How many requests there are for a submission. -/
def outstanding (v : DnsRequests) (k : ℕ) : ℕ := v.list.countP fun r => r.query.submission = k

/-- How often the callback was called for a submission. -/
def called (v : DnsRequests) (k : ℕ) : ℕ := v.calls.countP fun c => c.query.submission = k

/-- How many requests for a submission were deleted. -/
def removed (v : DnsRequests) (k : ℕ) : ℕ := v.deleted.countP fun q => q.submission = k

/-- **One end for each**: a submission has its request, its call or its
deletion, and what was not submitted has none of them. -/
def Counted (v : DnsRequests) : Prop :=
  ∀ k, v.outstanding k + v.called k + v.removed k = if k < v.submitted then 1 else 0

variable {v v' : DnsRequests}

theorem Counted.step (h : v.Counted) (hs : DnsStep v v') : v'.Counted := by
  intro k
  have hk := h k
  unfold outstanding called removed at hk ⊢
  cases hs with
  | submit query r packets new =>
    have hq : r.query.submission = v.submitted := by rw [new.query]
    simp only [List.countP_append, List.countP_singleton, hq, decide_eq_true_eq]
    split_ifs at hk ⊢ <;> omega
  | again xs ys r r' packets retries sentat timeout hlist hsends =>
    have hq : r'.query = r.query := hsends.query
    rw [hlist] at hk
    simp only [List.countP_append, List.countP_cons, hq] at hk ⊢
    exact hk
  | forward xs ys r r' packets hlist new =>
    have hq : r'.query = r.query := new.query
    rw [hlist] at hk
    simp only [List.countP_append, List.countP_cons, List.countP_nil, hq] at hk ⊢
    omega
  | complete xs ys r result reply hlist =>
    rw [hlist] at hk
    simp only [List.countP_append, List.countP_cons, List.countP_nil] at hk ⊢
    omega
  | delete xs ys r hlist =>
    rw [hlist] at hk
    simp only [List.countP_append, List.countP_cons, List.countP_nil] at hk ⊢
    omega

end DnsRequests

namespace Dns

variable {lib : Reslib} {nsaddrList : List SockaddrStorage} {domain : CString} {now : ℤ} {random : List UInt32}
variable {sendto : ℕ → Bool} {callbacks : List (List DnsSubmission)} {tr : List (Op × Unit)} {s : DnsEvloop}

theorem good_init : (DnsEvloop.init nsaddrList domain now random sendto callbacks).view.Good :=
  ⟨⟨List.nodup_nil, nofun⟩, nofun⟩

/-- "a". -/
def nameA : CString := ⟨[97], CString.nul_free_a⟩

/-- Routines that read the name "a" wherever they look. -/
def readsA : Reslib := ⟨fun _ _ => true, fun _ _ _ => (3, nameA), fun _ _ => 3⟩

/-- A nameserver at any address. -/
def anyServer : SockaddrStorage := ⟨.inet, 53, .replicate 4 0, .replicate 16 0⟩

/-- 127.0.0.1. -/
def localhost : Vector UInt8 4 := #v[127, 0, 0, 1]

/-- A reply to the request with the id 5: there is no "a". -/
def noSuchA : DnsDatagram where
  header := ⟨5, DNS_NXDOMAIN, 1, 0⟩
  buf := fun n => (List.replicate 12 (0 : UInt8) ++ [1, 97, 0, 0, 1, 0, 1]).getD n 0
  rc := 19
  lsin := { anyServer with sinAddr := localhost }

/-- The resolver before it is asked for anything. -/
def idle : DnsEvloop := .init [anyServer] ⟨[], CString.nul_free_nil⟩ 0 [5] (fun _ => true) []

/-- The request for "a". -/
def askingA : DnsReslist := ⟨0, 5, 0, 1, nameA, 3, 1, 0, 4, 0, .zero, some nameA, 2, ⟨7, 0⟩⟩

/-- It was asked for "a". -/
def waiting : DnsEvloop :=
  { idle with
    retrycnt := 1
    requestList := [askingA]
    allocated := 1
    submitted := 1
    packets := [⟨0, 5, nameA⟩]
    attempts := [(0, true)]
    random := [] }

/-- The reply came. -/
def replied : DnsEvloop :=
  { waiting with
    timeoutCount := Function.update waiting.timeoutCount 0 0
    requestList := []
    calls := [⟨⟨7, 0⟩, .nxdomain, none⟩] }

theorem step_lookA : step readsA idle (.submit (.byName nameA 7 DNS_T_A)) = some ((), waiting) := rfl

theorem step_noSuchA : step readsA waiting (.datagram noSuchA) = some ((), replied) := rfl

theorem runs_waiting : Runs readsA idle ([] ++ [(.submit (.byName nameA 7 DNS_T_A), ())]) waiting :=
  .snoc .nil (by exact trivial) step_lookA

/-- It is no answer with a name in it. -/
theorem fits_noSuchA : (Op.datagram noSuchA).Fits readsA waiting := fun _ hr => absurd hr.rcode (by decide)

end Dns

end Mowgli
