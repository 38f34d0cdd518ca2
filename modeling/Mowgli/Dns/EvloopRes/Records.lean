import Mowgli.Dns.EvloopRes.Answers
/-!
# Replies that are well formed

The records of a reply, one behind the other, and what becomes of them.
`proc_answer` skips the data of a `CNAME`; it takes the data of a record of
another type it does not know for the next record, and what comes to its end
without an address for an answer.
-/

namespace Mowgli

open DnsDatagram

/-- A record of a reply: where it begins, the length of its name, its type and
the length of its data. -/
structure DnsRecord where
  start : ℕ
  name : ℕ
  type : ℤ
  rdLength : ℕ

namespace DnsRecord

/-- Where the fixed part begins. -/
def head (r : DnsRecord) : ℕ := r.start + r.name

/-- Where the data begins. -/
def data (r : DnsRecord) : ℕ := r.head + DNS_ANSWER_FIXED_SIZE

/-- What is behind the record. -/
def stop (r : DnsRecord) : ℕ := r.data + r.rdLength

/-- An address of the type that is asked for. -/
def answers (asked : ℤ) (r : DnsRecord) : Bool := r.type = asked && r.rdLength = addressSize asked

/-- A record that `proc_answer` gets past. -/
def passed (asked : ℤ) (r : DnsRecord) : Bool := r.type ≠ asked && (r.type = DNS_T_CNAME || r.rdLength = 0)

end DnsRecord

variable (lib : Reslib)

/-- From `current` there are the records `rs`, each of them whole. -/
inductive Records (d : DnsDatagram) : ℕ → List DnsRecord → Prop
  | nil (current : ℕ) : Records d current []
  | cons {r : DnsRecord} {rs : List DnsRecord} (hname : d.nameLength lib rs.length r.start = r.name)
      (hpos : 0 < r.name) (htype : d.get16 r.head = r.type) (hlen : d.get16 (r.head + 8) = r.rdLength)
      (hstop : r.stop ≤ d.rc) (h : Records d r.stop rs) : Records d r.start (r :: rs)

/-- A reply with one question and the answers `rs`. -/
structure WellFormed (d : DnsDatagram) (start : ℕ) (rs : List DnsRecord) : Prop where
  question : skipQuestions lib d d.header.qdcount DNS_HEADER_SIZE = some start
  ancount : d.header.ancount = rs.length
  records : Records lib (d.setQdcount 0) start rs

/-- `res_read_single_reply` comes to `proc_answer`, and that returns 1. -/
def accepts (request : DnsReslist) (d : DnsDatagram) : Bool :=
  d.header.ancount ≠ 0 && (procAnswer lib request d).1

/-- The address of the request with the data of the record `r` in it. -/
def stored (request : DnsReslist) (d : DnsDatagram) (r : DnsRecord) : SockaddrStorage :=
  if request.type.toInt = DNS_T_A then
    { request.addr with family := .inet, sinAddr := .ofFn fun i => d.buf (r.data + i) }
  else { request.addr with family := .inet6, sin6Addr := .ofFn fun i => d.buf (r.data + i) }

/-- What becomes of the answers `rs` as it should: the first address of the type
that was asked for is taken, and what is before that is skipped whole. -/
structure Decodes (request : DnsReslist) (d : DnsDatagram) (start : ℕ) (rs : List DnsRecord) : Prop where
  success : accepts lib request d = true ↔ ∃ r ∈ rs, r.answers request.type.toInt
  address : ∀ r, rs.find? (·.answers request.type.toInt) = some r → (procAnswer lib request d).2.addr = stored request d r
  skipped : ∀ xs r ys, rs = xs ++ r :: ys → (∀ x ∈ xs, x.type ≠ request.type.toInt) → r.type ≠ request.type.toInt →
    (d.setQdcount 0).Comes lib start ys.length r.stop

variable {lib} {request : DnsReslist} {d : DnsDatagram} {n current start : ℕ} {r : DnsRecord} {rs xs ys : List DnsRecord}

/-! ## Going from record to record -/

theorem Records.start_eq (h : Records lib d current (r :: rs)) : current = r.start := by
  cases h
  rfl

theorem Records.tail (h : Records lib d current (r :: rs)) : Records lib d r.stop rs := by
  cases h with
  | cons _ _ _ _ _ h => exact h

/-- A record ends behind its fixed part, and has a name before that. -/
theorem Records.bounds (h : Records lib d current (r :: rs)) :
    current + 1 + DNS_ANSWER_FIXED_SIZE ≤ r.data ∧ r.data ≤ r.stop ∧ r.stop ≤ d.rc := by
  cases h with
  | cons _ hpos _ _ hstop _ =>
    refine ⟨?_, Nat.le_add_right .., hstop⟩
    unfold DnsRecord.data DnsRecord.head
    omega

/-- Where another record is behind it, there is something behind the fixed part. -/
theorem Records.room {q : DnsRecord} (h : Records lib d current (r :: q :: rs)) : r.data < d.rc := by
  have hr := h.bounds
  have hq := h.tail.bounds
  omega

theorem Records.recordAt (h : Records lib d current (r :: rs)) (hroom : r.data < d.rc) :
    d.RecordAt lib rs.length r.start r.head := by
  have hle := h.bounds.1
  cases h with
  | cons hname hpos htype hlen hstop h => exact ⟨by omega, by omega, by rw [hname]; rfl, hroom⟩

/-- Without a byte behind its fixed part, a record is not looked at, and the loop
ends well. -/
theorem Records.cut (h : Records lib d current (r :: rs)) (hroom : d.rc ≤ r.data) (request : DnsReslist) :
    procAnswers lib d (rs.length + 1) request r.start = (true, request) := by
  have hnone : ∀ head, ¬ d.RecordAt lib rs.length r.start head := by
    intro head hr
    cases h with
    | cons hname hpos htype hlen hstop h =>
      have hplace := hr.place
      have hfixed := hr.fixed
      rw [hname, Int.toNat_natCast] at hplace
      rw [hplace] at hfixed
      exact absurd hfixed (not_lt.2 hroom)
  rw [procAnswers_of_none hnone]
  cases h with
  | cons hname hpos htype hlen hstop h =>
    rw [hname]
    simp [hpos]

/-- A record of a type that is no answer is skipped, but the data only if it is a
`CNAME`. -/
theorem Records.next (h : Records lib d current (r :: rs)) (hroom : r.data < d.rc)
    (hno : ¬ (r.type = DNS_T_A ∨ r.type = DNS_T_AAAA ∨ r.type = DNS_T_PTR)) :
    d.nextAnswer lib rs.length r.start = some (if r.type = DNS_T_CNAME then r.stop else r.data) := by
  rw [(h.recordAt hroom).nextAnswer]
  cases h with
  | cons hname hpos htype hlen hstop h =>
    rw [htype, hlen, if_neg hno]
    split_ifs <;> rfl

/-- The types among the answers of which some would be for another request. -/
def Proper (asked : ℤ) (rs : List DnsRecord) : Prop :=
  ∀ r ∈ rs, r.type = DNS_T_A ∨ r.type = DNS_T_AAAA ∨ r.type = DNS_T_PTR → r.type = asked

variable {asked : ℤ}

/-- A record that is got past is skipped whole. -/
theorem Records.next_of_passed (h : Records lib d current (r :: rs)) (hroom : r.data < d.rc)
    (hproper : Proper asked (r :: rs)) (hp : r.passed asked) : d.nextAnswer lib rs.length r.start = some r.stop := by
  unfold DnsRecord.passed at hp
  simp only [Bool.and_eq_true, Bool.or_eq_true, decide_eq_true_eq] at hp
  rw [h.next hroom fun htype => hp.1 (hproper r (List.mem_cons_self ..) htype)]
  rcases hp.2 with hcname | hempty
  · rw [if_pos hcname]
  · have hstop : r.stop = r.data := by rw [DnsRecord.stop, hempty, Nat.add_zero]
    rw [hstop, ite_self]

/-- **The loop gets past** the records before `r`. -/
theorem Records.walk (start : ℕ) (h : Records lib d current (xs ++ r :: ys)) (hproper : Proper asked (xs ++ r :: ys))
    (hx : ∀ x ∈ xs, x.passed asked) :
    Records lib d r.start (r :: ys) ∧
    (d.Comes lib start (xs ++ r :: ys).length current → d.Comes lib start (ys.length + 1) r.start) ∧
    ∀ request, ∃ ttl, procAnswers lib d (xs ++ r :: ys).length request current =
      procAnswers lib d (ys.length + 1) { request with ttl := ttl } r.start := by
  induction xs generalizing current with
  | nil =>
    obtain rfl := h.start_eq
    exact ⟨h, fun hcomes => hcomes, fun request => ⟨request.ttl, rfl⟩⟩
  | cons x xs ih =>
    have hroom : x.data < d.rc := by
      cases xs with
      | nil => exact h.room
      | cons y xs => exact h.room
    obtain rfl := h.start_eq
    have hnext := h.next_of_passed hroom hproper (hx x (List.mem_cons_self ..))
    obtain ⟨hrecords, hcomes, hproc⟩ := ih h.tail (fun q hq => hproper q (List.mem_cons_of_mem _ hq))
      fun q hq => hx q (List.mem_cons_of_mem _ hq)
    refine ⟨hrecords, fun hc => hcomes (hc.next hnext), fun request => ?_⟩
    obtain ⟨ttl, hturn⟩ := procAnswers_next hnext request
    obtain ⟨ttl', hrest⟩ := hproc { request with ttl := ttl }
    exact ⟨ttl', hturn.trans hrest⟩

/-- Without an answer among them, the records are got past to the end, and that is
taken for success. -/
theorem Records.all_passed (h : Records lib d current rs) (hproper : Proper asked rs)
    (hx : ∀ x ∈ rs, x.passed asked) (request : DnsReslist) :
    (procAnswers lib d rs.length request current).1 = true := by
  induction rs generalizing current request with
  | nil => rfl
  | cons r rs ih =>
    obtain rfl := h.start_eq
    by_cases hroom : r.data < d.rc
    · obtain ⟨ttl, hturn⟩ := procAnswers_next (h.next_of_passed hroom hproper (hx r (List.mem_cons_self ..))) request
      rw [List.length_cons, hturn]
      exact ih h.tail (fun q hq => hproper q (List.mem_cons_of_mem _ hq)) (fun q hq => hx q (List.mem_cons_of_mem _ hq)) _
    · rw [List.length_cons, h.cut (not_lt.1 hroom)]

/-- What the record of the type that was asked for comes to. -/
theorem Records.decoded (h : Records lib d current (r :: rs)) (hroom : r.data < d.rc)
    (hasked : IsAddress request.type.toInt) (htype : r.type = request.type.toInt) :
    (procAnswers lib d (rs.length + 1) request r.start).1 = r.answers request.type.toInt ∧
    (r.answers request.type.toInt →
      (procAnswers lib d (rs.length + 1) request r.start).2.addr = stored request d r) := by
  have hr := h.recordAt hroom
  rw [hr.procAnswers]
  cases h with
  | cons hname hpos htype' hlen hstop h =>
    rw [htype', hlen, htype, if_pos (hasked.imp_right .inl)]
    unfold procRecord stored DnsRecord.answers addressSize
    rw [htype]
    rcases hasked with hA | hA
    · by_cases hsize : r.rdLength = 4
      · simp [hA, hsize]
        rfl
      · simp [hA, hsize]
    · have hne : DNS_T_AAAA ≠ DNS_T_A := by decide
      by_cases hsize : r.rdLength = 16
      · simp [hA, hne, hsize]
        rfl
      · simp [hA, hne, hsize]

/-! ## When a reply is decoded as it should -/

/-- What is before the first record of the type that was asked for is `CNAME`s and
records without data; and that record is an address, or there is none and
something behind the fixed part of that record. -/
def InStep (asked : ℤ) (rc : ℕ) (rs : List DnsRecord) : Prop :=
  rs = [] ∨ ∃ xs r ys, rs = xs ++ r :: ys ∧ (∀ x ∈ xs, x.passed asked) ∧ r.type = asked ∧
    (r.answers asked ∨ (∀ y ∈ ys, ¬ y.answers asked) ∧ r.data < rc)

theorem DnsRecord.type_of_answers (h : r.answers asked) : r.type = asked := by
  unfold DnsRecord.answers at h
  simp only [Bool.and_eq_true, decide_eq_true_eq] at h
  exact h.1

theorem DnsRecord.type_of_passed (h : r.passed asked) : r.type ≠ asked := by
  unfold DnsRecord.passed at h
  simp only [Bool.and_eq_true, decide_eq_true_eq] at h
  exact h.1

/-- What was got past is no answer. -/
theorem not_answers_of_passed (h : r.passed asked) : ¬ r.answers asked := fun h' =>
  DnsRecord.type_of_passed h (DnsRecord.type_of_answers h')

theorem WellFormed.procAnswer (h : WellFormed lib d start rs) (request : DnsReslist) :
    procAnswer lib request d = procAnswers lib (d.setQdcount 0) rs.length request start := by
  rw [Mowgli.procAnswer, h.question]
  dsimp only
  rw [h.ancount]

theorem WellFormed.accepts (h : WellFormed lib d start rs) (hne : rs ≠ []) (request : DnsReslist) :
    accepts lib request d = (Mowgli.procAnswer lib request d).1 := by
  unfold Mowgli.accepts
  rw [h.ancount, decide_eq_true (by simpa using hne), Bool.true_and]

/-- There is something behind the fixed part of an address. -/
theorem Records.room_of_answers (h : Records lib d current (r :: rs)) (ha : r.answers asked) : r.data < d.rc := by
  have hstop := h.bounds.2.2
  unfold DnsRecord.answers addressSize at ha
  simp only [Bool.and_eq_true, decide_eq_true_eq] at ha
  rw [DnsRecord.stop, ha.2] at hstop
  split_ifs at hstop <;> omega

/-- What the first record of the type that was asked for comes to, behind records
that are got past. -/
theorem WellFormed.decoded (h : WellFormed lib d start (xs ++ r :: ys)) (hasked : IsAddress request.type.toInt)
    (hproper : Proper request.type.toInt (xs ++ r :: ys)) (hx : ∀ x ∈ xs, x.passed request.type.toInt)
    (hroom : r.data < d.rc) (htype : r.type = request.type.toInt) :
    Mowgli.accepts lib request d = r.answers request.type.toInt ∧
      (r.answers request.type.toInt → (Mowgli.procAnswer lib request d).2.addr = stored request d r) := by
  obtain ⟨hrec, -, hproc⟩ := h.records.walk start hproper hx
  obtain ⟨ttl, hproc⟩ := hproc request
  rw [h.accepts (by simp), h.procAnswer, hproc]
  exact @Records.decoded lib { request with ttl := ttl } _ _ r ys hrec hroom hasked htype

/-- The first answer is the one behind the records that are got past. -/
theorem find?_answers (hx : ∀ x ∈ xs, x.passed asked) (hr : r.answers asked) :
    (xs ++ r :: ys).find? (·.answers asked) = some r := by
  rw [List.find?_append, List.find?_eq_none.2 fun x hxm => not_answers_of_passed (hx x hxm), Option.none_or]
  rw [List.find?_cons_of_pos hr]

/-- The records without one that was asked for are among those that are got
past. -/
theorem split_of_ne {xs' ys' : List DnsRecord} {x : DnsRecord} (heq : xs ++ r :: ys = xs' ++ x :: ys')
    (hr : r.type = asked) (hx' : ∀ q ∈ xs', q.type ≠ asked) (hx : x.type ≠ asked) :
    ∃ zs, xs = xs' ++ x :: zs ∧ ys' = zs ++ r :: ys := by
  rcases List.append_eq_append_iff.1 heq with ⟨zs, rfl, hzs⟩ | ⟨zs, rfl, hzs⟩
  · cases zs with
    | nil => exact absurd (List.cons.inj hzs).1 fun h => hx (h ▸ hr)
    | cons z zs =>
      obtain ⟨rfl, -⟩ := List.cons.inj hzs
      exact absurd hr (hx' r (by simp))
  · cases zs with
    | nil => exact absurd (List.cons.inj hzs).1 fun h => hx (h ▸ hr)
    | cons z zs =>
      obtain ⟨rfl, rfl⟩ := List.cons.inj hzs
      exact ⟨zs, rfl, rfl⟩

/-- There is an answer if and only if the record behind those that are got past
is one. -/
theorem exists_answers_iff (hx : ∀ x ∈ xs, x.passed asked) (hr : r.answers asked ∨ ∀ y ∈ ys, ¬ y.answers asked) :
    (∃ q ∈ xs ++ r :: ys, q.answers asked) ↔ r.answers asked := by
  refine ⟨?_, fun ha => ⟨r, by simp, ha⟩⟩
  rintro ⟨q, hq, ha⟩
  rcases hr with hr | hnone
  · exact hr
  · rcases List.mem_append.1 hq with hq | hq
    · exact absurd ha (not_answers_of_passed (hx q hq))
    · rcases List.mem_cons.1 hq with rfl | hq
      · exact ha
      · exact absurd ha (hnone q hq)

theorem InStep.decodes (h : WellFormed lib d start rs) (hasked : IsAddress request.type.toInt)
    (hproper : Proper request.type.toInt rs) (hstep : InStep request.type.toInt d.rc rs) :
    Decodes lib request d start rs := by
  rcases hstep with rfl | ⟨xs, r, ys, rfl, hx, htype, hr⟩
  · refine ⟨?_, nofun, fun xs r ys heq => by simp at heq⟩
    simp [Mowgli.accepts, h.ancount]
  obtain ⟨hrec, -, -⟩ := h.records.walk start hproper hx
  have hroom : r.data < d.rc := hr.elim (fun ha => hrec.room_of_answers ha) And.right
  obtain ⟨hacc, haddr⟩ := h.decoded hasked hproper hx hroom htype
  have hiff := exists_answers_iff hx (hr.imp_right And.left)
  refine ⟨by rw [hacc, hiff], fun q hq => ?_, fun xs' x ys' heq hxs' hxne => ?_⟩
  · have ha := hiff.1 ⟨q, List.mem_of_find?_eq_some hq, List.find?_some hq⟩
    rw [find?_answers hx ha] at hq
    obtain rfl := Option.some.inj hq
    exact haddr ha
  · obtain ⟨zs, rfl, rfl⟩ := split_of_ne heq htype hxs' hxne
    rw [heq] at h hproper
    obtain ⟨hrec', hcomes, -⟩ := h.records.walk start hproper fun q hq => hx q (by simp [hq])
    have hroom' : x.data < d.rc := by
      cases zs with
      | nil => exact hrec'.room
      | cons z zs => exact hrec'.room
    have hstart : (d.setQdcount 0).Comes lib start (xs' ++ x :: (zs ++ r :: ys)).length start := by
      rw [← h.ancount]
      exact .start
    refine (hcomes hstart).next (hrec'.next_of_passed hroom' (fun q hq => hproper q ?_) (hx x (by simp)))
    exact List.mem_append_right _ hq

/-- Without a step out of the records, the reply is decoded only if it is in
step. -/
theorem Decodes.inStep (h : WellFormed lib d start rs) (hasked : IsAddress request.type.toInt)
    (hproper : Proper request.type.toInt rs) (hd : Decodes lib request d start rs) :
    InStep request.type.toInt d.rc rs := by
  by_cases hne : rs = []
  · exact .inl hne
  cases hfind : rs.find? fun r => !r.passed request.type.toInt with
  | none =>
    -- with nothing but what is got past, the end is taken for success
    rw [List.find?_eq_none] at hfind
    have hx : ∀ x ∈ rs, x.passed request.type.toInt := fun x hx => by simpa using hfind x hx
    have hacc : accepts lib request d = true := by
      rw [h.accepts hne, h.procAnswer]
      exact h.records.all_passed hproper hx request
    obtain ⟨r, hr, ha⟩ := hd.success.1 hacc
    exact absurd ha (not_answers_of_passed (hx r hr))
  | some r =>
    obtain ⟨hr, xs, ys, rfl, hx⟩ := List.find?_eq_some_iff_append.1 hfind
    have hx : ∀ x ∈ xs, x.passed request.type.toInt := fun x hxm => by simpa using hx x hxm
    obtain ⟨hrec, hcomes, hproc⟩ := h.records.walk start hproper hx
    by_cases htype : r.type = request.type.toInt
    · refine .inr ⟨xs, r, ys, rfl, hx, htype, ?_⟩
      by_cases hroom : r.data < d.rc
      · by_cases ha : r.answers request.type.toInt
        · exact .inl ha
        · refine .inr ⟨fun y hy hay => ha ?_, hroom⟩
          rw [← (h.decoded hasked hproper hx hroom htype).1]
          exact hd.success.2 ⟨y, by simp [hy], hay⟩
      · -- the record is not looked at, and that is taken for success
        obtain ⟨ttl, hproc⟩ := hproc request
        have hacc : accepts lib request d = true := by
          rw [h.accepts hne, h.procAnswer, hproc, hrec.cut (not_lt.1 hroom)]
        cases ys with
        | nil => exact .inl ((exists_answers_iff hx (.inr fun _ h => absurd h List.not_mem_nil)).1 (hd.success.1 hacc))
        | cons y ys => exact absurd hrec.room hroom
    · -- its data is not skipped, and there is some
      unfold DnsRecord.passed at hr
      simp only [Bool.not_eq_true', Bool.and_eq_false_iff, Bool.or_eq_false_iff, decide_eq_false_iff_not] at hr
      obtain ⟨hcname, hdata⟩ := hr.resolve_left fun h => h htype
      have hlt : r.data < r.stop := Nat.lt_add_of_pos_right (Nat.pos_of_ne_zero hdata)
      have hroom : r.data < d.rc := hlt.trans_le hrec.bounds.2.2
      have hnext := hrec.next hroom fun hanswer => htype (hproper r (by simp) hanswer)
      rw [if_neg hcname] at hnext
      have hstart : (d.setQdcount 0).Comes lib start (xs ++ r :: ys).length start := by
        rw [← h.ancount]
        exact .start
      have hstop := hd.skipped xs r ys rfl (fun x hxm => DnsRecord.type_of_passed (hx x hxm)) htype
      exact absurd (((hcomes hstart).next hnext).unique hstop) hlt.ne

/-- **When a reply is decoded.** -/
theorem decodes_iff (h : WellFormed lib d start rs) (hasked : IsAddress request.type.toInt)
    (hproper : Proper request.type.toInt rs) :
    Decodes lib request d start rs ↔ InStep request.type.toInt d.rc rs :=
  ⟨fun hd => hd.inStep h hasked hproper, fun hs => hs.decodes h hasked hproper⟩

namespace Dns

/-- A reply to the request with the id 5, with the given answers behind the
question. -/
def replyA (ancount : ℕ) (answers : List UInt8) : DnsDatagram where
  header := ⟨5, DNS_NO_ERRORS, 1, ancount⟩
  buf := fun n => (List.replicate 12 (0 : UInt8) ++ [1, 97, 0, 0, 1, 0, 1] ++ answers).getD n 0
  rc := 19 + answers.length
  lsin := { anyServer with sinAddr := localhost }

/-- An alias, and the address 127.0.0.2. -/
def aliasA : DnsDatagram := replyA 2
  [1, 97, 0, 0, 5, 0, 1, 0, 0, 0, 0, 0, 3, 1, 97, 0, 1, 97, 0, 0, 1, 0, 1, 0, 0, 0, 0, 0, 4, 127, 0, 0, 2]

theorem decodes_iff_alias : Decodes readsA askingA aliasA 19 [⟨19, 3, DNS_T_CNAME, 3⟩, ⟨35, 3, DNS_T_A, 4⟩] := by
  have hrecords : Records readsA (aliasA.setQdcount 0) 19 [⟨19, 3, DNS_T_CNAME, 3⟩, ⟨35, 3, DNS_T_A, 4⟩] := by
    refine .cons (r := ⟨19, 3, DNS_T_CNAME, 3⟩) rfl (by decide) (by decide) (by decide) (by decide) ?_
    exact .cons (r := ⟨35, 3, DNS_T_A, 4⟩) rfl (by decide) (by decide) (by decide) (by decide) (.nil _)
  refine (decodes_iff ⟨by decide, rfl, hrecords⟩ (.inl (by decide)) fun r hr htype => ?_).2 (.inr ⟨[_], _, [], rfl, ?_⟩)
  · rcases List.mem_pair.1 hr with rfl | rfl
    · exact absurd htype (by decide)
    · decide
  · refine ⟨fun x hx => ?_, by decide, .inl (by decide)⟩
    rw [List.mem_singleton.1 hx]
    decide

/-- A text of no characters. -/
def textA : DnsDatagram := replyA 1 [1, 97, 0, 0, 16, 0, 1, 0, 0, 0, 0, 0, 1, 0]

/-- **A reply without an address** is taken for an answer, with the address that
the request was made with. -/
theorem text_is_accepted : (∃ rs, WellFormed readsA textA 19 rs ∧ Proper askingA.type.toInt rs ∧
      ¬ Decodes readsA askingA textA 19 rs) ∧
    accepts readsA askingA textA = true ∧ (procAnswer readsA askingA textA).2.addr = .zero := by
  have hrecords : Records readsA (textA.setQdcount 0) 19 [⟨19, 3, 16, 1⟩] :=
    .cons (r := ⟨19, 3, 16, 1⟩) rfl (by decide) (by decide) (by decide) (by decide) (.nil _)
  refine ⟨⟨[⟨19, 3, 16, 1⟩], ⟨by decide, rfl, hrecords⟩, fun r hr htype => ?_, fun hd => ?_⟩, by decide, by decide⟩
  · rw [List.mem_singleton.1 hr] at htype
    exact absurd htype (by decide)
  · obtain ⟨r, hr, ha⟩ := hd.success.1 (by decide)
    rw [List.mem_singleton.1 hr] at ha
    exact absurd ha (by decide)

end Dns

end Mowgli
