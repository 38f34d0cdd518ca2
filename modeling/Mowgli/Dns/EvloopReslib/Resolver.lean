import Mowgli.Dns.EvloopReslib.Query
import Mowgli.Dns.EvloopRes.Matching
import Mowgli.Dns.EvloopRes.Records
/-!
# The resolver with its name routines

The routines of `dns/evloop_reslib.c` where the resolver calls them. They depend on
nothing behind a datagram. The question of a reply is taken for that of a
request where the two are printed alike; so if the reply repeats the question
of the packet, it is taken exactly if the name was written as it is printed, and
then a reply with the address that was asked for ends the request with it.
-/

namespace Mowgli

open DnsName Prog

namespace DnsDatagram

/-- The byte at `i` in the buffer. What is read of the header is there in CPU byte
order, on a machine with the low byte in front. -/
def byte (d : DnsDatagram) (i : ℕ) : UInt8 :=
  if i = 0 then d.header.id.toNat.toUInt8
  else if i = 1 then (d.header.id.toNat / 256).toUInt8
  else if i = 4 then d.header.qdcount.toUInt8
  else if i = 5 then (d.header.qdcount / 256).toUInt8
  else if i = 6 then d.header.ancount.toUInt8
  else if i = 7 then (d.header.ancount / 256).toUInt8
  else d.buf i

/-- The buffer, with one byte behind the datagram. -/
def block (d : DnsDatagram) : List UInt8 := (List.range (d.rc + 1)).map d.byte

end DnsDatagram

/-- What a routine returns, where -1 is for all that is not a value. -/
def ofResult {α β : Type} (r : NameResult α) (value : α → β) (failed : β) : β :=
  match r with
  | some (.ok a) => value a
  | _ => failed

/-- The routines of `dns/evloop_reslib.c`, as `query_name`, `check_question` and
`proc_answer` call them. -/
def reslib : Reslib where
  mkquery dname type :=
    match resMkquery dname C_IN type.toInt (List.replicate MAXPACKET 0) with
    | some (some (n, _)) => 0 < n
    | _ => false
  dnExpand d current size :=
    ofResult (DnsName.dnExpand d.block d.rc current size) (fun r => (r.1, r.2)) (-1, .ofBuffer [])
  dnSkipname d current := ofResult (DnsName.dnSkipname d.block d.rc current) (fun n => (n : ℤ)) (-1)

variable {d : DnsDatagram} {request : DnsReslist} {current size k n : ℕ} {ls : List (List UInt8)} {packet : List UInt8}
  {q : Bool} {name : CString} {asked : Int8}

namespace DnsDatagram

theorem length_block (d : DnsDatagram) : d.block.length = d.rc + 1 := by
  rw [block, List.length_map, List.length_range]

theorem getElem?_block {i : ℕ} (h : i ≤ d.rc) : d.block[i]? = some (d.byte i) := by
  rw [block, List.getElem?_map, List.getElem?_range (by omega), Option.map_some]

theorem take_block_congr {buf : ℕ → UInt8} (h : ∀ i < d.rc, buf i = d.buf i) :
    ({ d with buf := buf } : DnsDatagram).block.take d.rc = d.block.take d.rc := by
  rw [block, block, ← List.map_take, ← List.map_take, List.take_range, min_eq_left (Nat.le_succ _)]
  refine List.map_congr_left fun i hi => ?_
  have hbuf := h i (List.mem_range.1 hi)
  unfold byte
  split_ifs <;> first | rfl | exact hbuf

end DnsDatagram

theorem reslib_dnExpand (d : DnsDatagram) (current size : ℕ) : reslib.dnExpand d current size =
    ofResult (DnsName.dnExpand d.block d.rc current size) (fun r => ((r.1 : ℤ), r.2)) (-1, .ofBuffer []) := rfl

theorem reslib_dnSkipname (d : DnsDatagram) (current : ℕ) : reslib.dnSkipname d current =
    ofResult (DnsName.dnSkipname d.block d.rc current) (fun n => (n : ℤ)) (-1) := rfl

/-- **The routines read only what is in the datagram**, or what they read behind it
makes no difference. -/
theorem reslib_within : reslib.Within := by
  intro d buf h current
  have htake := DnsDatagram.take_block_congr h
  have hlen := DnsDatagram.length_block d
  have hlen' := DnsDatagram.length_block { d with buf := buf }
  dsimp only at hlen'
  refine ⟨fun size => ?_, ?_⟩
  · rw [reslib_dnExpand, reslib_dnExpand, dnExpand_congr current size htake (by omega) (by omega)]
  · rw [reslib_dnSkipname, reslib_dnSkipname, (dnSkipname_congr current htake (by omega) (by omega)).2]

/-! ## The name of a question -/

/-- At `x` in the datagram is the name with the labels `ls`, in `k` bytes. -/
abbrev DnsDatagram.Reads (d : DnsDatagram) (x k : ℕ) (ls : List (List UInt8)) : Prop :=
  DnsName.Reads d.block d.rc x NS_MAXCDNAME k ls

/-- **A name that is expanded** is in the datagram. -/
theorem reads_of_dnExpand (hpos : 0 < (reslib.dnExpand d current size).1) : ∃ k ls, d.Reads current k ls ∧
    reslib.dnExpand d current size = ((k : ℤ), expanded ls) := by
  have hlen := d.length_block
  rw [reslib_dnExpand] at hpos ⊢
  rcases h : DnsName.dnExpand d.block d.rc current size with _ | e | ⟨k, name⟩
  · rw [h] at hpos
    exact absurd hpos (show ¬ (0 : ℤ) < -1 by decide)
  · rw [h] at hpos
    exact absurd hpos (show ¬ (0 : ℤ) < -1 by decide)
  · obtain ⟨ls, hreads, rfl, -⟩ := dnExpand_eq_done (by omega) h
    exact ⟨k, ls, hreads, rfl⟩

/-- **A name that is in the datagram is expanded**, if its text fits. -/
theorem dnExpand_of_text_fits (h : d.Reads current k ls) (hls : ∀ l ∈ ls, IsText l) (hfits : (nameText ls).length < size) :
    reslib.dnExpand d current size = ((k : ℤ), expanded ls) := by
  have hlen := d.length_block
  rw [reslib_dnExpand, DnsName.dnExpand_of_text (by omega) h hls, if_pos hfits]
  rfl

theorem dnSkipname_of_name (h : d.Reads current k ls) : reslib.dnSkipname d current = k := by
  rw [reslib_dnSkipname, DnsName.dnSkipname_of_reads h]
  rfl

/-- **A question is taken for that of a request** only if it is one name in the
datagram that is printed as the request has it, up to the case. -/
theorem checkQuestion_sound (h : checkQuestion reslib request d = true) : d.header.qdcount = 1 ∧
    ∃ k ls, d.Reads DNS_HEADER_SIZE k ls ∧ (expanded ls).lower = request.queryname.lower := by
  obtain ⟨hcount, n, name, heq, hpos, hlower⟩ := Dns.checkQuestion_eq_true h
  have hpos' : 0 < (reslib.dnExpand d DNS_HEADER_SIZE (DNS_RES_HOSTLEN + 1)).1 := by
    rw [heq]
    exact hpos
  obtain ⟨k, ls, hreads, heq'⟩ := reads_of_dnExpand hpos'
  rw [heq] at heq'
  obtain ⟨-, rfl⟩ := Prod.mk.inj heq'
  exact ⟨hcount, k, ls, hreads, hlower⟩

/-- The datagram has the one question of a packet that was sent. -/
structure DnsDatagram.Echoes (d : DnsDatagram) (packet : List UInt8) : Prop where
  single : d.header.qdcount = 1
  whole : packet.length ≤ d.rc
  question : ∀ i, HFIXEDSIZE ≤ i → i < packet.length → packet[i]? = some (d.buf i)

/-- What is behind the header is in the buffer. -/
theorem DnsDatagram.Echoes.prefix_block (h : d.Echoes packet) {i : ℕ} (hi : HFIXEDSIZE ≤ i) :
    packet.drop i <+: (d.block.take d.rc).drop i := by
  have hH : HFIXEDSIZE = 12 := rfl
  have hlen := d.length_block
  have hwhole := h.whole
  rw [List.prefix_iff_getElem?]
  intro j hj
  rw [List.length_drop] at hj
  rw [List.getElem?_drop, List.getElem?_take_of_lt (by omega), d.getElem?_block (by omega)]
  have hbyte : d.byte (i + j) = d.buf (i + j) := by
    unfold DnsDatagram.byte
    rw [if_neg (by omega), if_neg (by omega), if_neg (by omega), if_neg (by omega), if_neg (by omega), if_neg (by omega)]
  rw [hbyte, ← h.question (i + j) (by omega) (by omega), ← List.getElem?_drop, List.getElem?_eq_getElem]

/-- The name that a packet asks for is in a datagram with its question. -/
theorem DnsDatagram.Echoes.reads {type : ℤ} (hls : IsName ls) (h : d.Echoes (queryPacket ls C_IN type)) :
    d.Reads DNS_HEADER_SIZE (wire ls).length ls := by
  have hpre := h.prefix_block (i := 12) le_rfl
  have hdrop : (queryPacket ls C_IN type).drop 12 = wire ls ++ (put16 type ++ put16 C_IN) := by
    rw [queryPacket, List.append_assoc]
    rfl
  rw [hdrop] at hpre
  have hwhole := h.whole
  have hH : HFIXEDSIZE = 12 := rfl
  rw [length_queryPacket] at hwhole
  exact ⟨0, LabelCode.NameAt.of_wire hls.isLabel ((List.prefix_append _ _).trans hpre), by omega, hls.size⟩

/-- The text of the root is a dot, though nothing is left of that in the end. -/
theorem length_nameText_le (h : ∀ l ∈ ls, IsText l) : (nameText ls).length ≤ max 1 (expanded ls).length := by
  by_cases hne : ls = []
  · subst hne
    exact le_max_left 1 _
  · rw [CString.length, expanded_bytes h hne]
    exact le_max_right 1 _

/-- A reply with the question for the labels `ls` is taken only if they are printed as the
request has them. -/
theorem lower_of_checkQuestion (hls : IsName ls) {type : ℤ} (h : d.Echoes (queryPacket ls C_IN type))
    (hcheck : checkQuestion reslib request d = true) : (expanded ls).lower = request.queryname.lower := by
  obtain ⟨-, k, ls', hreads', hlower⟩ := checkQuestion_sound hcheck
  obtain ⟨-, rfl⟩ := (h.reads hls).unique hreads'
  exact hlower

/-- It is then taken, if there is room for the name in a request. -/
theorem checkQuestion_of_echo (hls : IsName ls) (hlen : request.queryname.length ≤ DNS_RES_HOSTLEN) {type : ℤ}
    (h : d.Echoes (queryPacket ls C_IN type)) :
    checkQuestion reslib request d = true ↔ (expanded ls).lower = request.queryname.lower := by
  have hreads := h.reads hls
  refine ⟨lower_of_checkQuestion hls h, fun hlower => ?_⟩
  have htext : (expanded ls).length = request.queryname.length := by
    have := congrArg CString.length hlower
    rwa [CString.length, CString.length, CString.lower, CString.lower, List.length_map, List.length_map] at this
  have hH : DNS_RES_HOSTLEN = 512 := rfl
  have hfits : (nameText ls).length < DNS_RES_HOSTLEN + 1 := by
    have := length_nameText_le hls.text
    omega
  have hwire : 0 < (wire ls).length := by
    rw [length_wire]
    omega
  unfold checkQuestion
  rw [dnExpand_of_text_fits hreads hls.text hfits]
  simp only [h.single, decide_true, Bool.true_and, Bool.and_eq_true, decide_eq_true_eq]
  exact ⟨by exact_mod_cast hwire, CString.strcasecmp_eq_zero.2 hlower⟩

/-- The text is written as it is printed, up to the case. -/
def Printed (k : CString) : Prop := ∃ q ls, nsNamePton k NS_MAXCDNAME = done (q, wire ls) ∧ IsName ls ∧
  (expanded ls).lower = k.lower

/-- A reply that repeats the question of the packet that was made for the request is taken
only if the name is written as it is printed. -/
theorem printed_of_echo {buf : List UInt8}
    (hquery : resMkquery request.queryname C_IN request.type.toInt buf = some (some (n, packet)))
    (h : d.Echoes (packet.take n)) (hcheck : checkQuestion reslib request d = true) : Printed request.queryname := by
  obtain ⟨q, ls, hpton, hls, rfl, htake⟩ := resMkquery_eq_some hquery
  rw [htake] at h
  exact ⟨q, ls, hpton, hls, lower_of_checkQuestion hls h hcheck⟩

/-- **A reply that repeats the question** of the packet that was made for the request is
taken exactly if the name is written as it is printed, up to the case: not with
a dot at its end, nor with an escape that needs none. -/
theorem checkQuestion_echo {buf : List UInt8}
    (hquery : resMkquery request.queryname C_IN request.type.toInt buf = some (some (n, packet)))
    (hlen : request.queryname.length ≤ DNS_RES_HOSTLEN) (h : d.Echoes (packet.take n)) :
    checkQuestion reslib request d = true ↔ Printed request.queryname := by
  refine ⟨printed_of_echo hquery h, ?_⟩
  obtain ⟨q, ls, hpton, hls, rfl, htake⟩ := resMkquery_eq_some hquery
  rw [htake] at h
  rintro ⟨q', ls', hpton', hls', hlower⟩
  rw [hpton] at hpton'
  have hwire := (Prod.mk.inj (Except.ok.inj (Option.some.inj hpton'))).2
  obtain rfl := LabelCode.wire_injective hls.isLabel hls'.isLabel hwire
  exact (checkQuestion_of_echo hls hlen h).2 hlower

/-- What was printed is written as it is printed. -/
theorem printed_expanded (h : IsName ls) : Printed (expanded ls) := ⟨false, ls, nsNamePton_expanded h, h, rfl⟩

/-- **A name with a dot at its end is not**, however else it is written. -/
theorem not_printed_of_qualified {k : CString} {w : List UInt8} (h : nsNamePton k NS_MAXCDNAME = done (true, w)) :
    ¬ Printed k := by
  rintro ⟨q, ls, hpton, hls, hlower⟩
  exact absurd (nsNamePton_not_qualified hls hlower h) (by decide)

/-- With the dot, a name has the packet that it has without. -/
theorem resMkquery_fullyQualified (h : IsName ls) (hne : ls ≠ []) (queryClass type : ℤ) (buf : List UInt8) :
    resMkquery (fullyQualified ls) queryClass type buf = resMkquery (expanded ls) queryClass type buf := by
  have hcomp : ∀ msg dst dstsiz earlier lastdnptr, dnComp (fullyQualified ls) msg dst dstsiz earlier lastdnptr =
      dnComp (expanded ls) msg dst dstsiz earlier lastdnptr := fun msg dst dstsiz earlier lastdnptr => by
    rw [dnComp, dnComp, nsNamePton_fullyQualified h hne, nsNamePton_expanded h]
    rfl
  simp only [resMkquery, hcomp]

end Mowgli
