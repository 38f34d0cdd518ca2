import Mowgli.Dns.EvloopRes.Once
/-!
# What `proc_answer` reads

The loop of `proc_answer` goes from record to record as long as there is
room for the fixed part of one. It copies an address without looking whether
the datagram has all of it.
-/

namespace Mowgli

/-- How many bytes an address of the type `type` has. -/
def addressSize (type : ℤ) : ℕ := if type = DNS_T_A then 4 else 16

/-- The types that have an address. -/
def IsAddress (type : ℤ) : Prop := type = DNS_T_A ∨ type = DNS_T_AAAA

variable (lib : Reslib)

/-- The bytes that an address is copied from, where `asked` is the type of the
request. -/
def recordReads (asked : Int8) (type : ℤ) (rdLength current : ℕ) : List ℕ :=
  if asked.toInt ≠ type then []
  else if type = DNS_T_A then
    if rdLength ≠ 4 then [] else List.range' current 4
  else if type = DNS_T_AAAA then
    if rdLength ≠ 16 then [] else List.range' current 16
  else []

/-- The bytes that the loop of `proc_answer` over the answers reads, but for
those that the name routines read. -/
def answersReads (asked : Int8) (d : DnsDatagram) : ℕ → ℕ → List ℕ
  | 0, _ => []
  | n + 1, current =>
    if d.rc ≤ current then []
    else
      let len := d.nameLength lib n current
      if len ≤ 0 then []
      else
        let head := current + len.toNat
        if d.rc ≤ head + DNS_ANSWER_FIXED_SIZE then []
        else
          let type : ℤ := d.get16 head
          let rdLength := d.get16 (head + 8)
          let rest :=
            if type = DNS_T_A ∨ type = DNS_T_AAAA ∨ type = DNS_T_PTR then
              recordReads asked type rdLength (head + DNS_ANSWER_FIXED_SIZE)
            else if type = DNS_T_CNAME then answersReads asked d n (head + DNS_ANSWER_FIXED_SIZE + rdLength)
            else answersReads asked d n (head + DNS_ANSWER_FIXED_SIZE)
          List.range' head DNS_ANSWER_FIXED_SIZE ++ rest

/-- The bytes that `proc_answer` reads, but for those that the name routines
read. -/
def answerReads (request : DnsReslist) (d : DnsDatagram) : List ℕ :=
  match skipQuestions lib d d.header.qdcount DNS_HEADER_SIZE with
  | none => []
  | some current => answersReads lib request.type (d.setQdcount 0) d.header.ancount current

variable {lib} {request : DnsReslist} {asked : Int8} {d : DnsDatagram} {n current current' head start : ℕ}

open DnsDatagram

/-! ## A turn of the loop -/

namespace DnsDatagram

theorem RecordAt.answersReads (h : d.RecordAt lib n current head) (asked : Int8) :
    answersReads lib asked d (n + 1) current = List.range' head DNS_ANSWER_FIXED_SIZE ++
      if (d.get16 head : ℤ) = DNS_T_A ∨ (d.get16 head : ℤ) = DNS_T_AAAA ∨ (d.get16 head : ℤ) = DNS_T_PTR then
        recordReads asked (d.get16 head) (d.get16 (head + 8)) (head + DNS_ANSWER_FIXED_SIZE)
      else if (d.get16 head : ℤ) = DNS_T_CNAME then
        answersReads lib asked d n (head + DNS_ANSWER_FIXED_SIZE + d.get16 (head + 8))
      else answersReads lib asked d n (head + DNS_ANSWER_FIXED_SIZE) := by
  obtain ⟨hwithin, hname, rfl, hfixed⟩ := h
  rw [Mowgli.answersReads, if_neg (by omega)]
  dsimp only
  rw [if_neg (by omega), if_neg (by omega)]

theorem answersReads_eq_nil (h : ∀ head, ¬ d.RecordAt lib n current head) (asked : Int8) :
    answersReads lib asked d (n + 1) current = [] := by
  rw [answersReads]
  dsimp only
  split_ifs with h₁ h₂ h₃ <;> first
    | rfl
    | exact absurd ⟨by omega, by omega, rfl, by omega⟩ (h _)

/-- Where the loop goes on, it reads what it reads from there. -/
theorem answersReads_next (h : d.nextAnswer lib n current = some current') (asked : Int8) :
    ∃ head, d.RecordAt lib n current head ∧ answersReads lib asked d (n + 1) current =
      List.range' head DNS_ANSWER_FIXED_SIZE ++ answersReads lib asked d n current' := by
  obtain ⟨head, hr⟩ := exists_recordAt h
  refine ⟨head, hr, ?_⟩
  rw [hr.nextAnswer] at h
  rw [hr.answersReads]
  split_ifs at h ⊢ <;> rw [Option.some.inj h]

/-! ## All the bytes that are read -/

/-- The datagram has all of each address that was asked for and is come to. -/
def Complete (lib : Reslib) (asked : Int8) (d : DnsDatagram) (start : ℕ) : Prop :=
  ∀ n current head, d.Comes lib start (n + 1) current → d.RecordAt lib n current head →
    asked.toInt = d.get16 head → IsAddress (d.get16 head) → d.get16 (head + 8) = addressSize (d.get16 head) →
    head + DNS_ANSWER_FIXED_SIZE + addressSize (d.get16 head) ≤ d.rc

theorem mem_recordReads {type : ℤ} {rdLength i : ℕ} : i ∈ recordReads asked type rdLength current ↔
    asked.toInt = type ∧ IsAddress type ∧ rdLength = addressSize type ∧
      current ≤ i ∧ i < current + addressSize type := by
  unfold recordReads IsAddress addressSize
  by_cases hA : type = DNS_T_A
  · rw [if_pos hA, if_pos hA]
    split_ifs with h₁ h₂ <;> simp_all
  · rw [if_neg hA, if_neg hA]
    split_ifs with h₁ h₂ h₃ <;> simp_all

theorem Comes.reads_subset (h : d.Comes lib start n current) :
    answersReads lib asked d n current ⊆ answersReads lib asked d d.header.ancount start := by
  induction h with
  | start => exact fun _ hi => hi
  | next hcomes hnext ih =>
    obtain ⟨head, -, hreads⟩ := answersReads_next hnext asked
    intro i hi
    refine ih ?_
    rw [hreads]
    exact List.mem_append_right _ hi

/-- From where it has come to, the loop reads only what the datagram has. -/
theorem Complete.reads_within (hd : Complete lib asked d start) (h : d.Comes lib start n current) :
    ∀ i ∈ answersReads lib asked d n current, i < d.rc := by
  induction n generalizing current with
  | zero => exact fun i hi => absurd hi List.not_mem_nil
  | succ n ih =>
    intro i hi
    by_cases hr : ∃ head, d.RecordAt lib n current head
    · obtain ⟨head, hr⟩ := hr
      cases hnext : d.nextAnswer lib n current with
      | some current' =>
        obtain ⟨head', hr', hreads⟩ := answersReads_next hnext asked
        rw [hreads, List.mem_append, List.mem_range'_1] at hi
        rcases hi with hi | hi
        · exact hi.2.trans hr'.fixed
        · exact ih (h.next hnext) i hi
      | none =>
        rw [hr.nextAnswer] at hnext
        split_ifs at hnext with htype hcname
        rw [hr.answersReads, if_pos htype, List.mem_append, List.mem_range'_1] at hi
        rcases hi with hi | hi
        · exact hi.2.trans hr.fixed
        · obtain ⟨hreq, haddr, hlen, -, hlt⟩ := mem_recordReads.1 hi
          exact hlt.trans_le (hd n current head h hr hreq haddr hlen)
    · rw [answersReads_eq_nil (not_exists.1 hr)] at hi
      cases hi

theorem complete_iff :
    Complete lib asked d start ↔ ∀ i ∈ answersReads lib asked d d.header.ancount start, i < d.rc := by
  refine ⟨fun h => h.reads_within .start, fun h n current head hcomes hr hreq haddr hlen => ?_⟩
  have hsize : 0 < addressSize (d.get16 head) := by
    unfold addressSize
    split_ifs <;> decide
  have hlast : head + DNS_ANSWER_FIXED_SIZE + addressSize (d.get16 head) - 1 ∈
      answersReads lib asked d (n + 1) current := by
    rw [hr.answersReads, if_pos (haddr.imp_right .inl), List.mem_append, mem_recordReads]
    exact .inr ⟨hreq, haddr, hlen, by omega, by omega⟩
  have := h _ (hcomes.reads_subset hlast)
  omega

end DnsDatagram

/-! ## Nothing else is read -/

/-- The name routines read only what is in the datagram. -/
def Reslib.Within (lib : Reslib) : Prop :=
  ∀ (d : DnsDatagram) (buf : ℕ → UInt8), (∀ i < d.rc, buf i = d.buf i) → ∀ current,
    (∀ size, lib.dnExpand { d with buf := buf } current size = lib.dnExpand d current size) ∧
      lib.dnSkipname { d with buf := buf } current = lib.dnSkipname d current

section

variable {buf : ℕ → UInt8}

theorem get16_congr (h : ∀ i < d.rc, buf i = d.buf i) {i : ℕ} (hi : i + 1 < d.rc) :
    ({ d with buf := buf } : DnsDatagram).get16 i = d.get16 i := by
  have h₀ := h i (by omega)
  have h₁ := h (i + 1) hi
  dsimp only [get16]
  rw [h₀, h₁]

theorem procRecord_congr (hlib : lib.Within) (request : DnsReslist) {type : ℤ} {rdLength : ℕ}
    (h : ∀ i, i < d.rc ∨ i ∈ recordReads request.type type rdLength current → buf i = d.buf i) :
    procRecord lib request { d with buf := buf } type rdLength current =
      procRecord lib request d type rdLength current := by
  have hread : ∀ i, current ≤ i → i < current + addressSize type → request.type.toInt = type → IsAddress type →
      rdLength = addressSize type → buf i = d.buf i := fun i hle hlt hreq haddr hlen =>
    h i (.inr (mem_recordReads.2 ⟨hreq, haddr, hlen, hle, hlt⟩))
  have hname := (hlib d buf (fun i hi => h i (.inl hi)) current).1 (DNS_RES_HOSTLEN + 100)
  unfold procRecord
  rw [hname]
  unfold addressSize at hread
  split_ifs with h₁ hA h₂ hAAAA h₃
  · rfl
  · rfl
  · rw [if_pos hA] at hread
    have hbytes : (fun i : Fin 4 => buf (current + i)) = fun i : Fin 4 => d.buf (current + i) :=
      funext fun i => hread _ (by omega) (by omega) (not_not.1 h₁) (.inl hA) (not_not.1 h₂)
    rw [hbytes]
  · rfl
  · rw [if_neg hA] at hread
    have hbytes : (fun i : Fin 16 => buf (current + i)) = fun i : Fin 16 => d.buf (current + i) :=
      funext fun i => hread _ (by omega) (by omega) (not_not.1 h₁) (.inr hAAAA) (not_not.1 h₃)
    rw [hbytes]
  · rfl

theorem procAnswers_congr (hlib : lib.Within) (request : DnsReslist)
    (h : ∀ i, i < d.rc ∨ i ∈ answersReads lib request.type d n current → buf i = d.buf i) :
    procAnswers lib { d with buf := buf } n request current = procAnswers lib d n request current := by
  induction n generalizing request current with
  | zero => rfl
  | succ n ih =>
    have hbuf : ∀ i < d.rc, buf i = d.buf i := fun i hi => h i (.inl hi)
    have hname : ({ d with buf := buf } : DnsDatagram).nameLength lib n current = d.nameLength lib n current := by
      rw [nameLength, nameLength]
      exact congrArg Prod.fst ((hlib (d.setAncount n) buf hbuf current).1 _)
    by_cases hr : ∃ head, d.RecordAt lib n current head
    · obtain ⟨head, hr⟩ := hr
      have hr' : ({ d with buf := buf } : DnsDatagram).RecordAt lib n current head :=
        ⟨hr.within, hname ▸ hr.name, hname ▸ hr.place, hr.fixed⟩
      have hfixed : head + 10 < d.rc := hr.fixed
      have htype := get16_congr hbuf (i := head) (by omega)
      have hlen := get16_congr hbuf (i := head + 8) (by omega)
      have httl : ({ d with buf := buf } : DnsDatagram).get32 (head + 4) = d.get32 (head + 4) := by
        rw [get32, get32, get16_congr hbuf (by omega), get16_congr hbuf (by omega)]
      rw [hr.answersReads] at h
      rw [hr'.procAnswers, hr.procAnswers, htype, hlen, httl]
      split_ifs at h ⊢ with hanswer hcname
      · exact procRecord_congr (d := d.setAncount n) hlib _ fun i hi => h i (hi.imp_right fun hi => List.mem_append_right _ hi)
      · exact ih _ fun i hi => h i (hi.imp_right fun hi => List.mem_append_right _ hi)
      · exact ih _ fun i hi => h i (hi.imp_right fun hi => List.mem_append_right _ hi)
    · have hr' : ∀ head, ¬ ({ d with buf := buf } : DnsDatagram).RecordAt lib n current head := fun head h' =>
        hr ⟨head, h'.within, hname ▸ h'.name, hname ▸ h'.place, h'.fixed⟩
      rw [procAnswers_of_none (not_exists.1 hr), procAnswers_of_none hr', hname]

theorem skipQuestions_congr (hlib : lib.Within) (h : ∀ i < d.rc, buf i = d.buf i) (n current : ℕ) :
    skipQuestions lib { d with buf := buf } n current = skipQuestions lib d n current := by
  induction n generalizing current with
  | zero => rfl
  | succ n ih =>
    have hlen := (hlib (d.setQdcount (n + 1)) buf h current).2
    simp only [skipQuestions, ih]
    rw [← hlen]
    rfl

/-- **What `proc_answer` comes to** depends on nothing behind the datagram but the
bytes that are in `answerReads`. -/
theorem procAnswer_congr (hlib : lib.Within) (request : DnsReslist) (d : DnsDatagram)
    (h : ∀ i, i < d.rc ∨ i ∈ answerReads lib request d → buf i = d.buf i) :
    procAnswer lib request { d with buf := buf } = procAnswer lib request d := by
  have hbuf : ∀ i < d.rc, buf i = d.buf i := fun i hi => h i (.inl hi)
  unfold answerReads at h
  unfold procAnswer
  rw [skipQuestions_congr hlib hbuf]
  cases hskip : skipQuestions lib d d.header.qdcount DNS_HEADER_SIZE with
  | none => rfl
  | some start =>
    rw [hskip] at h
    exact procAnswers_congr (d := d.setQdcount 0) hlib request h

end

/-- **What `proc_answer` reads is in the datagram** if and only if that has all
of each address that was asked for and is come to. -/
theorem answerReads_within_iff (lib : Reslib) (request : DnsReslist) (d : DnsDatagram) :
    (∀ i ∈ answerReads lib request d, i < d.rc) ↔
      ∀ start, skipQuestions lib d d.header.qdcount DNS_HEADER_SIZE = some start →
        Complete lib request.type (d.setQdcount 0) start := by
  unfold answerReads
  cases skipQuestions lib d d.header.qdcount DNS_HEADER_SIZE with
  | none => simp
  | some start =>
    have hiff : Complete lib request.type (d.setQdcount 0) start ↔ _ := complete_iff
    exact ⟨fun h s hs => Option.some.inj hs ▸ hiff.2 h, fun h => hiff.1 (h start rfl)⟩

namespace Dns

/-- A reply to the request with the id 5 that ends in the address of "a". -/
def cutOff : DnsDatagram where
  header := ⟨5, DNS_NO_ERRORS, 1, 1⟩
  buf := fun n => (List.replicate 12 (0 : UInt8) ++ [1, 97, 0, 0, 1, 0, 1] ++
    [1, 97, 0, 0, 1, 0, 1, 0, 0, 0, 0, 0, 4, 127]).getD n 0
  rc := 33
  lsin := { anyServer with sinAddr := localhost }

/-- **Three bytes behind the datagram** are taken for the rest of the address. -/
theorem address_cut_off : checkQuestion readsA askingA cutOff = true ∧
    ¬ ∀ i ∈ answerReads readsA askingA cutOff, i < cutOff.rc := by
  refine ⟨by decide, fun h => absurd (h 35 ?_) (by decide)⟩
  decide

end Dns

end Mowgli
