import Mowgli.Dns.Reslist
/-!
# The records that `proc_answer` comes to

The loop of `proc_answer` goes from record to record as long as there is room for
the fixed part of one, up to the first with an address or a name. That it
copies, if it is of the type that was asked for: the name of a host to
`request->name`, however large the block of that is.
-/

namespace Mowgli

variable (lib : Reslib)

namespace DnsDatagram

/-- The value of the name routine for the name at `current`, with `n` answers
behind that. -/
def nameLength (d : DnsDatagram) (n current : ℕ) : ℤ :=
  (lib.dnExpand (d.setAncount n) current (DNS_RES_HOSTLEN + 100)).1

/-- At `current` there are a name and, from `head`, the fixed part of a record
with something behind it. -/
structure RecordAt (d : DnsDatagram) (n current head : ℕ) : Prop where
  within : current < d.rc
  name : 0 < d.nameLength lib n current
  place : head = current + (d.nameLength lib n current).toNat
  fixed : head + DNS_ANSWER_FIXED_SIZE < d.rc

/-- Where the loop of `proc_answer` goes on behind the record at `current`, with
`n` answers behind that. -/
def nextAnswer (d : DnsDatagram) (n current : ℕ) : Option ℕ :=
  if d.rc ≤ current then none
  else
    let len := d.nameLength lib n current
    if len ≤ 0 then none
    else
      let head := current + len.toNat
      if d.rc ≤ head + DNS_ANSWER_FIXED_SIZE then none
      else
        let type : ℤ := d.get16 head
        if type = DNS_T_A ∨ type = DNS_T_AAAA ∨ type = DNS_T_PTR then none
        else if type = DNS_T_CNAME then some (head + DNS_ANSWER_FIXED_SIZE + d.get16 (head + 8))
        else some (head + DNS_ANSWER_FIXED_SIZE)

/-- The loop of `proc_answer` that begins at `start` comes to `current`, with as
many answers left. -/
inductive Comes (d : DnsDatagram) (start : ℕ) : ℕ → ℕ → Prop
  | start : Comes d start d.header.ancount start
  | next {n current current' : ℕ} : Comes d start (n + 1) current → d.nextAnswer lib n current = some current' →
      Comes d start n current'

end DnsDatagram

/-- The name of a host that `proc_answer` comes to, as much of it as it copies, fits the
block of `request->name`. -/
def HostFits (request : DnsReslist) (d : DnsDatagram) : Prop :=
  request.type.toInt = DNS_T_PTR → ∀ start, skipQuestions lib d d.header.qdcount DNS_HEADER_SIZE = some start →
    ∀ n current head, (d.setQdcount 0).Comes lib start (n + 1) current → (d.setQdcount 0).RecordAt lib n current head →
      (d.get16 head : ℤ) = DNS_T_PTR →
        ∀ len host, lib.dnExpand ((d.setQdcount 0).setAncount n) (head + DNS_ANSWER_FIXED_SIZE) (DNS_RES_HOSTLEN + 100) =
          (len, host) → 0 < len → (host.strlcpy (DNS_RES_HOSTLEN + 1)).length < request.nameSize

variable {lib} {request : DnsReslist} {d : DnsDatagram} {n current current' head start : ℕ}

/-! ## A turn of the loop -/

namespace DnsDatagram

/-- The loop goes on where it finds a record, unless that is an answer. -/
theorem RecordAt.nextAnswer (h : d.RecordAt lib n current head) :
    d.nextAnswer lib n current =
      if (d.get16 head : ℤ) = DNS_T_A ∨ (d.get16 head : ℤ) = DNS_T_AAAA ∨ (d.get16 head : ℤ) = DNS_T_PTR then none
      else if (d.get16 head : ℤ) = DNS_T_CNAME then some (head + DNS_ANSWER_FIXED_SIZE + d.get16 (head + 8))
      else some (head + DNS_ANSWER_FIXED_SIZE) := by
  obtain ⟨hwithin, hname, rfl, hfixed⟩ := h
  rw [DnsDatagram.nextAnswer, if_neg (by omega)]
  dsimp only
  rw [if_neg (by omega), if_neg (by omega)]

theorem RecordAt.procAnswers (h : d.RecordAt lib n current head) (request : DnsReslist) :
    procAnswers lib d (n + 1) request current =
      if (d.get16 head : ℤ) = DNS_T_A ∨ (d.get16 head : ℤ) = DNS_T_AAAA ∨ (d.get16 head : ℤ) = DNS_T_PTR then
        procRecord lib { request with ttl := d.get32 (head + 4) } (d.setAncount n) (d.get16 head) (d.get16 (head + 8))
          (head + DNS_ANSWER_FIXED_SIZE)
      else if (d.get16 head : ℤ) = DNS_T_CNAME then
        procAnswers lib d n { request with ttl := d.get32 (head + 4) }
          (head + DNS_ANSWER_FIXED_SIZE + d.get16 (head + 8))
      else procAnswers lib d n { request with ttl := d.get32 (head + 4) } (head + DNS_ANSWER_FIXED_SIZE) := by
  obtain ⟨hwithin, hname, rfl, hfixed⟩ := h
  rw [nameLength] at *
  rw [Mowgli.procAnswers, if_neg (by omega)]
  dsimp only
  rw [if_neg (by omega), if_neg (by omega)]

/-- Where it finds none, it is left. -/
theorem nextAnswer_eq_none (h : ∀ head, ¬ d.RecordAt lib n current head) : d.nextAnswer lib n current = none := by
  rw [nextAnswer]
  dsimp only
  split_ifs with h₁ h₂ h₃ <;> first
    | rfl
    | exact absurd ⟨by omega, by omega, rfl, by omega⟩ (h _)

theorem exists_recordAt (h : d.nextAnswer lib n current = some current') : ∃ head, d.RecordAt lib n current head := by
  by_contra hnone
  rw [nextAnswer_eq_none (not_exists.1 hnone)] at h
  cases h

/-- Where the loop goes on, so does what it comes to. -/
theorem procAnswers_next (h : d.nextAnswer lib n current = some current') (request : DnsReslist) :
    ∃ ttl, procAnswers lib d (n + 1) request current = procAnswers lib d n { request with ttl := ttl } current' := by
  obtain ⟨head, hr⟩ := exists_recordAt h
  refine ⟨d.get32 (head + 4), ?_⟩
  rw [hr.nextAnswer] at h
  rw [hr.procAnswers]
  split_ifs at h ⊢ <;> rw [Option.some.inj h]

theorem Comes.le (h : d.Comes lib start n current) : n ≤ d.header.ancount := by
  induction h with
  | start => exact le_rfl
  | next _ _ ih => exact (Nat.le_succ _).trans ih

/-- With so many answers left, the loop is in one place. -/
theorem Comes.unique (h : d.Comes lib start n current) (h' : d.Comes lib start n current') : current = current' := by
  induction h generalizing current' with
  | start =>
    cases h' with
    | start => rfl
    | next h' _ => exact absurd h'.le (Nat.not_succ_le_self _)
  | next h hnext ih =>
    cases h' with
    | start => exact absurd h.le (Nat.not_succ_le_self _)
    | next h' hnext' =>
      obtain rfl := ih h'
      exact Option.some.inj (hnext.symm.trans hnext')

theorem procAnswers_of_none (h : ∀ head, ¬ d.RecordAt lib n current head) (request : DnsReslist) :
    procAnswers lib d (n + 1) request current = (decide (d.rc ≤ current ∨ 0 < d.nameLength lib n current), request) := by
  rw [procAnswers]
  rw [nameLength]
  dsimp only
  split_ifs with h₁ h₂ h₃
  · simp [h₁]
  · simp [h₁, h₂]
  · simp [not_le.1 h₂]
  all_goals exact absurd ⟨by omega, not_le.1 h₂, rfl, not_le.1 h₃⟩ (h _)

/-- So far, it has changed the time for which the answers are good at most. -/
theorem Comes.procAnswers (h : d.Comes lib start n current) (request : DnsReslist) :
    ∃ ttl, procAnswers lib d d.header.ancount request start = procAnswers lib d n { request with ttl := ttl } current := by
  induction h with
  | start => exact ⟨request.ttl, rfl⟩
  | next _ hnext ih =>
    obtain ⟨ttl, heq⟩ := ih
    obtain ⟨ttl', hturn⟩ := procAnswers_next hnext { request with ttl := ttl }
    exact ⟨ttl', heq.trans hturn⟩

end DnsDatagram

open DnsDatagram

/-! ## The name of a host -/

/-- The name in a record for an address is copied. -/
theorem procRecord_host {len : ℤ} {host : CString} (hasked : request.type.toInt = DNS_T_PTR) (rdLength : ℕ)
    (h : lib.dnExpand d current (DNS_RES_HOSTLEN + 100) = (len, host)) (hlen : 0 < len) :
    procRecord lib request d DNS_T_PTR rdLength current =
      (true, { request with name := some (host.strlcpy (DNS_RES_HOSTLEN + 1)) }) := by
  rw [procRecord, if_neg (not_not.2 hasked), if_neg (by decide), if_neg (by decide), h]
  dsimp only
  rw [if_neg (not_le.2 hlen)]

/-- Other records leave the name. -/
theorem procRecord_fits (hfits : request.nameFits = true) {type : ℤ} {rdLength : ℕ}
    (htype : type = DNS_T_A ∨ type = DNS_T_AAAA ∨ type = DNS_T_PTR)
    (h : request.type.toInt = DNS_T_PTR → type = DNS_T_PTR → ∀ len host,
      lib.dnExpand d current (DNS_RES_HOSTLEN + 100) = (len, host) → 0 < len →
        (host.strlcpy (DNS_RES_HOSTLEN + 1)).length < request.nameSize) :
    (procRecord lib request d type rdLength current).2.nameFits = true := by
  unfold procRecord
  dsimp only
  split_ifs with hne hA h4 hAAAA h16 hn
  · exact hfits
  · exact hfits
  · exact hfits
  · exact hfits
  · exact hfits
  · exact hfits
  · have hptr : type = DNS_T_PTR := (htype.resolve_left hA).resolve_left hAAAA
    exact decide_eq_true (h ((not_not.1 hne).trans hptr) hptr _ _ rfl (not_le.1 hn))

/-- From where it has come to, the loop copies what fits. -/
theorem procAnswers_fits (hfits : request.nameFits = true) (hcomes : d.Comes lib start n current)
    (h : request.type.toInt = DNS_T_PTR → ∀ n current head, d.Comes lib start (n + 1) current →
      d.RecordAt lib n current head → (d.get16 head : ℤ) = DNS_T_PTR →
        ∀ len host, lib.dnExpand (d.setAncount n) (head + DNS_ANSWER_FIXED_SIZE) (DNS_RES_HOSTLEN + 100) = (len, host) →
          0 < len → (host.strlcpy (DNS_RES_HOSTLEN + 1)).length < request.nameSize) :
    (procAnswers lib d n request current).2.nameFits = true := by
  induction n generalizing request current with
  | zero => exact hfits
  | succ n ih =>
    by_cases hr : ∃ head, d.RecordAt lib n current head
    · obtain ⟨head, hr⟩ := hr
      cases hnext : d.nextAnswer lib n current with
      | some current' =>
        obtain ⟨ttl, hturn⟩ := procAnswers_next hnext request
        rw [hturn]
        exact ih hfits (hcomes.next hnext) h
      | none =>
        rw [hr.nextAnswer] at hnext
        split_ifs at hnext with htype hcname
        rw [hr.procAnswers, if_pos htype]
        refine @procRecord_fits lib { request with ttl := d.get32 (head + 4) } _ _ hfits _ _ htype ?_
        exact fun hasked hptr => h hasked n current head hcomes hr hptr
    · rw [procAnswers_of_none (not_exists.1 hr)]
      exact hfits

/-- **What `proc_answer` copies fits** exactly if the name of a host that it comes to does. -/
theorem procAnswer_fits_iff (hfits : request.nameFits = true) :
    (procAnswer lib request d).2.nameFits = true ↔ HostFits lib request d := by
  unfold procAnswer HostFits
  cases hskip : skipQuestions lib d d.header.qdcount DNS_HEADER_SIZE with
  | none => exact iff_of_true hfits fun _ => nofun
  | some start =>
    constructor
    · intro hcopied hasked _ hstart n current head hcomes hr hptr len host hexpand hlen
      obtain rfl := Option.some.inj hstart
      obtain ⟨ttl, heq⟩ := hcomes.procAnswers request
      have hancount : (d.setQdcount 0).header.ancount = d.header.ancount := rfl
      have htype : ((d.setQdcount 0).get16 head : ℤ) = DNS_T_PTR := hptr
      have hone := @procRecord_host lib { request with ttl := (d.setQdcount 0).get32 (head + 4) } _ _ len host hasked
        ((d.setQdcount 0).get16 (head + 8)) hexpand hlen
      dsimp only at hcopied
      rw [← hancount, heq, hr.procAnswers, htype, if_pos (.inr (.inr rfl)), hone] at hcopied
      exact of_decide_eq_true hcopied
    · intro h
      exact procAnswers_fits (d := d.setQdcount 0) hfits .start fun hasked => h hasked start rfl

end Mowgli
