import Mowgli.Dns.EvloopReslib.Reply
/-!
# Lookups of addresses

The name that `do_query_number` prints for an address is one that
`mowgli_dns_res_mkquery` makes a packet for, and it is written as it is printed, so that
replies to it are taken. No two addresses have the same. The name that comes for
an address is then asked for itself, with the labels that were in the reply.
-/

namespace Mowgli

open DnsName DnsDatagram Prog

/-! ## Names that need no escapes -/

/-- A text of which no character is escaped. -/
structure IsOrdinary (t : List UInt8) : Prop where
  ne_nil : t ≠ []
  short : t.length < 64
  plain : ∀ c ∈ t, charText c = [c]

/-- The labels of texts. -/
def ofTexts (ts : List (List UInt8)) : List (List UInt8) := ts.map fun t => t.length.toUInt8 :: t

variable {t : List UInt8} {ts us : List (List UInt8)} {addr addr' : SockaddrStorage} {k : CString}

theorem isText_ofTexts (h : ∀ t ∈ ts, IsOrdinary t) : ∀ l ∈ ofTexts ts, IsText l := by
  intro l hl
  obtain ⟨t, ht, rfl⟩ := List.mem_map.1 hl
  exact .mk' (h t ht).ne_nil (h t ht).short

theorem flatMap_charText_eq (h : ∀ c ∈ t, charText c = [c]) : t.flatMap charText = t := by
  induction t with
  | nil => rfl
  | cons c t ih =>
    rw [List.flatMap_cons, h c (List.mem_cons_self ..), ih fun c hc => h c (List.mem_cons_of_mem _ hc)]
    rfl

theorem labelText_ordinary (h : IsOrdinary t) : labelText (t.length.toUInt8 :: t) = t := by
  rw [labelText_text h.short, flatMap_charText_eq h.plain]

/-- What is printed for texts is the texts, with dots between them. -/
theorem dotted_ofTexts (h : ∀ t ∈ ts, IsOrdinary t) : dotted (ofTexts ts) = ts.flatMap fun t => ch '.' :: t := by
  induction ts with
  | nil => rfl
  | cons t ts ih =>
    obtain ⟨ht, hts⟩ := List.forall_mem_cons.1 h
    rw [ofTexts, List.map_cons, dotted_cons, labelText_ordinary ht, List.flatMap_cons, List.cons_append, ← ofTexts, ih hts]

theorem length_wire_ofTexts (ts : List (List UInt8)) :
    (wire (ofTexts ts)).length = (ts.map fun t => t.length + 1).sum + 1 := by
  rw [length_wire]
  congr 1
  induction ts with
  | nil => rfl
  | cons t ts ih =>
    rw [ofTexts, List.map_cons, List.flatten_cons, List.length_append, ← ofTexts, ih, List.map_cons, List.sum_cons]
    rfl

theorem ofTexts_injective (h : ofTexts ts = ofTexts us) : ts = us :=
  List.map_injective_iff.2 (fun _ _ h => (List.cons.inj h).2) h

/-! ## The names of addresses -/

namespace SockaddrStorage

theorem isOrdinary_printU (b : UInt8) : IsOrdinary (printU b) := by
  have hall := forall_uint8 (P := fun b => printU b ≠ [] ∧ (printU b).length ≤ 3 ∧
    (printU b).all fun c => charText c = [c]) (by decide +kernel) b
  exact ⟨hall.1, by omega, forall_mem_bytes hall.2.2⟩

theorem length_printU_le (b : UInt8) : (printU b).length ≤ 3 :=
  forall_uint8 (P := fun b => (printU b).length ≤ 3) (by decide +kernel) b

theorem isOrdinary_printX (b : UInt8) : IsOrdinary (printX (b &&& 15)) ∧ IsOrdinary (printX (b >>> 4)) := by
  have hall := forall_uint8 (P := fun b => ((printX (b &&& 15)).all fun c => charText c = [c]) ∧
    (printX (b >>> 4)).all fun c => charText c = [c]) (by decide +kernel) b
  have hone : ∀ n : UInt8, (printX n).length < 64 := fun _ => Nat.one_lt_ofNat
  exact ⟨⟨List.cons_ne_nil _ _, hone _, forall_mem_bytes hall.1⟩, ⟨List.cons_ne_nil _ _, hone _, forall_mem_bytes hall.2⟩⟩

theorem printU_injective {b b' : UInt8} (h : printU b = printU b') : b = b' := by
  have hread := forall_uint8 (P := fun b => readDigits 10 0 (printU b) = b.toNat) (by decide +kernel)
  exact UInt8.toNat_inj.1 ((hread b).symm.trans (h ▸ hread b'))

theorem printX_injective {b b' : UInt8} (hlow : printX (b &&& 15) = printX (b' &&& 15))
    (hhigh : printX (b >>> 4) = printX (b' >>> 4)) : b = b' := by
  have hread := forall_uint8 (P := fun b => readDigits 16 0 (printX (b >>> 4) ++ printX (b &&& 15)) = b.toNat)
    (by decide +kernel)
  have heq := hread b
  rw [hlow, hhigh, hread b'] at heq
  exact UInt8.toNat_inj.1 heq.symm

/-- The two digits of a byte, the low one in front. -/
def nibbles (b : UInt8) : List (List UInt8) := [printX (b &&& 15), printX (b >>> 4)]

theorem nibbles_injective {l l' : List UInt8} (h : l.flatMap nibbles = l'.flatMap nibbles) : l = l' := by
  induction l generalizing l' with
  | nil =>
    cases l' with
    | nil => rfl
    | cons b' l' => exact absurd h.symm (List.cons_ne_nil _ _)
  | cons b l ih =>
    cases l' with
    | nil => exact absurd h (List.cons_ne_nil _ _)
    | cons b' l' =>
      obtain ⟨hlow, h⟩ := List.cons.inj h
      obtain ⟨hhigh, h⟩ := List.cons.inj h
      rw [printX_injective hlow hhigh, ih h]

/-- The texts in the name of an address. -/
def reverseTexts (addr : SockaddrStorage) : List (List UInt8) :=
  match addr.family with
  | .inet6 => addr.sin6Addr.toList.reverse.flatMap nibbles ++ [text "ip6", text "arpa"]
  | _ => addr.sinAddr.toList.reverse.map printU ++ [text "in-addr", text "arpa"]

theorem isOrdinary_text : IsOrdinary (text "ip6") ∧ IsOrdinary (text "arpa") ∧ IsOrdinary (text "in-addr") :=
  ⟨⟨by decide, by decide, forall_mem_bytes (by decide)⟩, ⟨by decide, by decide, forall_mem_bytes (by decide)⟩,
    ⟨by decide, by decide, forall_mem_bytes (by decide)⟩⟩

theorem isOrdinary_reverseTexts (addr : SockaddrStorage) : ∀ t ∈ addr.reverseTexts, IsOrdinary t := by
  obtain ⟨h₁, h₂, h₃⟩ := isOrdinary_text
  have h4 : ∀ t ∈ addr.sinAddr.toList.reverse.map printU ++ [text "in-addr", text "arpa"], IsOrdinary t := by
    intro t ht
    rcases List.mem_append.1 ht with ht | ht
    · obtain ⟨b, -, rfl⟩ := List.mem_map.1 ht
      exact isOrdinary_printU b
    · rcases List.mem_cons.1 ht with rfl | ht
      · exact h₃
      · exact List.mem_singleton.1 ht ▸ h₂
  unfold reverseTexts
  cases addr.family with
  | inet => exact h4
  | other n => exact h4
  | inet6 =>
    intro t ht
    rcases List.mem_append.1 ht with ht | ht
    · obtain ⟨b, -, ht⟩ := List.mem_flatMap.1 ht
      rcases List.mem_cons.1 ht with rfl | ht
      · exact (isOrdinary_printX b).1
      · exact List.mem_singleton.1 ht ▸ (isOrdinary_printX b).2
    · rcases List.mem_cons.1 ht with rfl | ht
      · exact h₁
      · exact List.mem_singleton.1 ht ▸ h₂

theorem reverseTexts_ne_nil (addr : SockaddrStorage) : addr.reverseTexts ≠ [] := by
  unfold reverseTexts
  cases addr.family with
  | inet => exact fun h => absurd (List.append_eq_nil_iff.1 h).2 (List.cons_ne_nil _ _)
  | other n => exact fun h => absurd (List.append_eq_nil_iff.1 h).2 (List.cons_ne_nil _ _)
  | inet6 => exact fun h => absurd (List.append_eq_nil_iff.1 h).2 (List.cons_ne_nil _ _)

/-- The name of an address is a name. -/
theorem isName_reverseTexts (addr : SockaddrStorage) : IsName (ofTexts addr.reverseTexts) := by
  refine ⟨isText_ofTexts addr.isOrdinary_reverseTexts, ?_⟩
  have hmax : NS_MAXCDNAME = 255 := rfl
  have hprinted : ∀ l : List UInt8, ((l.map printU).map fun t => t.length + 1).sum ≤ 4 * l.length := by
    intro l
    induction l with
    | nil => exact le_rfl
    | cons b l ih =>
      rw [List.map_cons, List.map_cons, List.sum_cons, List.length_cons]
      have hb := length_printU_le b
      omega
  have h4 : ((addr.sinAddr.toList.reverse.map printU ++ [text "in-addr", text "arpa"]).map
      fun t => t.length + 1).sum + 1 ≤ 255 := by
    have harpa : ([text "in-addr", text "arpa"].map fun t => t.length + 1).sum = 13 := by decide
    have hle := hprinted addr.sinAddr.toList.reverse
    rw [List.length_reverse, Vector.length_toList] at hle
    rw [List.map_append, List.sum_append, harpa]
    omega
  have hnibbles : ∀ l : List UInt8, ((l.flatMap nibbles).map fun t => t.length + 1).sum = 4 * l.length := by
    intro l
    induction l with
    | nil => rfl
    | cons b l ih =>
      rw [List.flatMap_cons, List.map_append, List.sum_append, ih, List.length_cons]
      have hb : ((nibbles b).map fun t => t.length + 1).sum = 4 := rfl
      omega
  rw [length_wire_ofTexts, hmax]
  unfold reverseTexts
  cases addr.family with
  | inet => exact h4
  | other n => exact h4
  | inet6 =>
    have harpa : ([text "ip6", text "arpa"].map fun t => t.length + 1).sum = 9 := by decide
    rw [List.map_append, List.sum_append, hnibbles, harpa, List.length_reverse, Vector.length_toList]
    decide

theorem dotted_eq {ls : List (List UInt8)} (h : ls ≠ []) : dotted ls = ch '.' :: nameText ls := by
  cases ls with
  | nil => exact absurd rfl h
  | cons l ls => rfl

/-- There is room for it in a request. -/
theorem length_reverse_le (addr : SockaddrStorage) : (expanded (ofTexts addr.reverseTexts)).length ≤ DNS_RES_HOSTLEN := by
  have hname := addr.isName_reverseTexts
  have hne : ofTexts addr.reverseTexts ≠ [] := fun h0 => addr.reverseTexts_ne_nil (List.map_eq_nil_iff.1 h0)
  have hdots : ∀ ts : List (List UInt8), (ts.flatMap fun t => ch '.' :: t).length = (ts.map fun t => t.length + 1).sum := by
    intro ts
    induction ts with
    | nil => rfl
    | cons t ts ih => rw [List.flatMap_cons, List.length_append, ih, List.map_cons, List.sum_cons, List.length_cons]
  have hdotted := congrArg List.length (dotted_ofTexts addr.isOrdinary_reverseTexts)
  have hsize := hname.size
  rw [dotted_eq hne, List.length_cons, hdots] at hdotted
  rw [length_wire_ofTexts] at hsize
  have hmax : NS_MAXCDNAME = 255 := rfl
  have hH : DNS_RES_HOSTLEN = 512 := rfl
  rw [CString.length, expanded_bytes hname.text hne]
  omega

/-- **What `do_query_number` prints** is the name of an address, as it is printed. -/
theorem queryname_eq (h : addr.queryname = some k) : k = expanded (ofTexts addr.reverseTexts) := by
  have hne : ofTexts addr.reverseTexts ≠ [] := fun h0 => addr.reverseTexts_ne_nil (List.map_eq_nil_iff.1 h0)
  have htexts := dotted_ofTexts addr.isOrdinary_reverseTexts
  rw [dotted_eq hne] at htexts
  rw [expanded, if_neg hne]
  unfold queryname at h
  unfold reverseTexts at htexts ⊢
  cases hfam : addr.family with
  | other n =>
    rw [hfam] at h
    cases h
  | inet =>
    rw [hfam] at h htexts
    rw [← Option.some.inj h]
    refine congrArg CString.ofBuffer ((List.cons_inj_right (ch '.')).1 (Eq.trans ?_ htexts.symm))
    have hdot : text "." = [ch '.'] := by decide
    have hend : text ".in-addr.arpa" = ch '.' :: text "in-addr" ++ ch '.' :: text "arpa" := by decide
    have hbytes : ∀ v : Vector UInt8 4, v.toList = [v[0], v[1], v[2], v[3]] := by
      intro v
      refine List.ext_getElem v.length_toList fun i _ hi => ?_
      rw [Vector.getElem_toList]
      rcases i with _ | _ | _ | _ | i
      · rfl
      · rfl
      · rfl
      · rfl
      · exact absurd hi (Nat.not_lt.2 (Nat.le_add_left 4 i))
    rw [hbytes]
    simp only [hdot, hend, List.reverse_cons, List.reverse_nil, List.map_cons, List.map_nil, List.flatMap_cons,
      List.flatMap_nil, List.append_assoc, List.cons_append, List.nil_append, List.append_nil]
  | inet6 =>
    rw [hfam] at h htexts
    rw [← Option.some.inj h]
    refine congrArg CString.ofBuffer ((List.cons_inj_right (ch '.')).1 (Eq.trans ?_ htexts.symm))
    have hall : ∀ l : List UInt8, ch '.' :: (l.flatMap (fun b => printX (b &&& 15) ++ text "." ++ printX (b >>> 4) ++ text ".") ++
        text "ip6.arpa") = (l.flatMap nibbles ++ [text "ip6", text "arpa"]).flatMap fun t => ch '.' :: t := by
      intro l
      induction l with
      | nil => decide
      | cons b l ih =>
        have hdot : text "." = [ch '.'] := by decide
        simp only [List.flatMap_cons, nibbles, hdot, List.append_assoc, List.cons_append, List.nil_append] at ih ⊢
        rw [← ih]
    exact hall _

/-- **No two addresses have the same name.** -/
theorem queryname_injective (h : addr.queryname = some k) (h' : addr'.queryname = some k) :
    addr.family = addr'.family ∧ (addr.family = .inet → addr.sinAddr = addr'.sinAddr) ∧
      (addr.family = .inet6 → addr.sin6Addr = addr'.sin6Addr) := by
  have heq : addr.reverseTexts = addr'.reverseTexts := by
    refine ofTexts_injective (expanded_injective addr.isName_reverseTexts addr'.isName_reverseTexts ?_)
    rw [← queryname_eq h, queryname_eq h']
  have hlen := congrArg List.length heq
  unfold queryname at h h'
  unfold reverseTexts at heq hlen
  have hnibbles : ∀ l : List UInt8, (l.flatMap nibbles).length = 2 * l.length := by
    intro l
    induction l with
    | nil => rfl
    | cons b l ih =>
      rw [List.flatMap_cons, List.length_append, ih, List.length_cons]
      have hb : (nibbles b).length = 2 := rfl
      omega
  cases hfam : addr.family with
  | other n =>
    rw [hfam] at h
    cases h
  | inet =>
    cases hfam' : addr'.family with
    | other n =>
      rw [hfam'] at h'
      cases h'
    | inet6 =>
      rw [hfam, hfam'] at hlen
      simp only [List.length_cons, List.length_nil, List.length_append, List.length_map, hnibbles, List.length_reverse,
        Vector.length_toList] at hlen
      omega
    | inet =>
      rw [hfam, hfam'] at heq
      have hrev := List.map_injective_iff.2 (fun _ _ => printU_injective) (List.append_cancel_right heq)
      exact ⟨rfl, fun _ => Vector.toList_inj.1 (List.reverse_injective hrev), nofun⟩
  | inet6 =>
    cases hfam' : addr'.family with
    | other n =>
      rw [hfam'] at h'
      cases h'
    | inet =>
      rw [hfam, hfam'] at hlen
      simp only [List.length_cons, List.length_nil, List.length_append, List.length_map, hnibbles, List.length_reverse,
        Vector.length_toList] at hlen
      omega
    | inet6 =>
      rw [hfam, hfam'] at heq
      have hrev := List.reverse_injective (nibbles_injective (List.append_cancel_right heq))
      exact ⟨rfl, nofun, fun _ => Vector.toList_inj.1 hrev⟩

/-- 127.0.0.1. -/
def localAddress : SockaddrStorage := ⟨.inet, 53, Dns.localhost, .replicate 16 0⟩

/-- "1.0.0.127.in-addr.arpa". -/
def localName : CString := expanded (ofTexts localAddress.reverseTexts)

theorem queryname_localAddress : localAddress.queryname = some localName := by decide +kernel

/-- With another port, it has the same name. -/
theorem queryname_injective_port : localAddress.family = AddrFamily.inet ∧
    (localAddress.family = .inet → localAddress.sinAddr = #v[127, 0, 0, 1]) ∧
      (localAddress.family = .inet6 → localAddress.sin6Addr = .replicate 16 0) :=
  queryname_injective queryname_localAddress
    (by decide +kernel : (⟨.inet, 0, #v[127, 0, 0, 1], .replicate 16 0⟩ : SockaddrStorage).queryname = some localName)

end SockaddrStorage

/-- **Every address is asked for**: there is a packet for its name, with its labels, and
the name is written as it is printed. -/
theorem reverse_asked (h : addr.queryname = some k) (type : ℤ) : Printed k ∧ ∃ n buf,
    resMkquery k C_IN type (List.replicate MAXPACKET 0) = some (some (n, buf)) ∧
      buf.take n = queryPacket (ofTexts addr.reverseTexts) C_IN type := by
  have hname := addr.isName_reverseTexts
  obtain rfl := SockaddrStorage.queryname_eq h
  have hsize := hname.size
  have hmax : NS_MAXCDNAME = 255 := rfl
  have hroom : HFIXEDSIZE + (wire (ofTexts addr.reverseTexts)).length + QFIXEDSIZE <
      (List.replicate MAXPACKET (0 : UInt8)).length := by
    rw [List.length_replicate, HFIXEDSIZE, QFIXEDSIZE, MAXPACKET]
    omega
  obtain ⟨buf, heq, htake⟩ := resMkquery_of_name C_IN type (nsNamePton_expanded hname) hname hroom
  exact ⟨printed_expanded hname, _, buf, heq, htake⟩

/-- The name of 127.0.0.1 is asked for. -/
theorem reverse_asked_localhost : Printed SockaddrStorage.localName ∧ ∃ n buf,
    resMkquery SockaddrStorage.localName C_IN DNS_T_PTR (List.replicate MAXPACKET 0) = some (some (n, buf)) ∧
      buf.take n = queryPacket (ofTexts SockaddrStorage.localAddress.reverseTexts) C_IN DNS_T_PTR :=
  reverse_asked SockaddrStorage.queryname_localAddress DNS_T_PTR

/-! ## The name of an address -/

variable {s s' : DnsEvloop} {r : DnsReslist} {d : DnsDatagram} {n x : ℕ} {packet buf : List UInt8}
  {ls : List (List UInt8)} {before after : List DnsRecord} {a : DnsRecord} {lib : Reslib}

/-- A name of two labels or more is not completed with the local domain. -/
theorem hostName_expanded (domain : CString) (hls : ∀ l ∈ ls, IsText l) (htwo : 2 ≤ ls.length)
    (hlen : (nameText ls).length ≤ DNS_RES_HOSTLEN) : hostName domain (expanded ls) = expanded ls := by
  obtain ⟨l, l', ls, rfl⟩ : ∃ l l' rest, ls = l :: l' :: rest := by
    match ls, htwo with
    | l :: l' :: rest, _ => exact ⟨l, l', rest, rfl⟩
  have hbytes := expanded_bytes hls (List.cons_ne_nil _ _)
  have hsize : (expanded (l :: l' :: ls)).length ≤ DNS_RES_HOSTLEN := by
    rw [CString.length, hbytes]
    exact hlen
  have hdot : (expanded (l :: l' :: ls)).strchr (ch '.') = true := by
    rw [CString.strchr, hbytes, nameText, dotted_cons, Bool.or_eq_true, List.contains_iff_mem]
    exact .inl (List.mem_append_right _ (List.mem_cons_self ..))
  have hkeep : addLocalDomain domain (expanded (l :: l' :: ls)) DNS_RES_HOSTLEN = expanded (l :: l' :: ls) := by
    rw [addLocalDomain, if_neg]
    rw [hdot]
    exact fun h => absurd h.1 (by decide)
  rw [hostName, Dns.strlcpy_of_le hsize, hkeep, Dns.strlcpy_of_le hsize]

theorem Records.get16_head {current : ℕ} (h : Records lib d current (a :: after)) : (d.get16 a.head : ℤ) = a.type := by
  cases h with
  | cons _ _ htype _ _ _ => exact htype

/-- What `proc_answer` makes of a reply to the lookup of an address. -/
theorem procAnswer_ptr (hwell : WellFormed reslib d x (before ++ a :: after)) (hasked : r.type.toInt = DNS_T_PTR)
    (hproper : Proper r.type.toInt (before ++ a :: after)) (hx : ∀ q ∈ before, q.passed r.type.toInt)
    (ha : a.type = DNS_T_PTR) {k : ℕ} (hreads : ((d.setQdcount 0).setAncount after.length).Reads a.data k ls)
    (hls : ∀ l ∈ ls, IsText l) (hlen : (nameText ls).length ≤ DNS_RES_HOSTLEN) :
    ∃ ttl, procAnswer reslib r d = (true, { r with ttl := ttl, name := some (expanded ls) }) := by
  obtain ⟨hrec, -, hproc⟩ := hwell.records.walk 0 hproper hx
  obtain ⟨ttl, hproc⟩ := hproc r
  obtain ⟨c, hname, -⟩ := id hreads
  have hbounds := hname.bounds
  have hpos : 0 < k := by omega
  have hroom : a.data < (d.setQdcount 0).rc := by
    have hrc : ((d.setQdcount 0).setAncount after.length).rc = (d.setQdcount 0).rc := rfl
    rw [List.length_take, hrc] at hbounds
    omega
  have hr := hrec.recordAt hroom
  have hH : DNS_RES_HOSTLEN = 512 := rfl
  have hexpand := dnExpand_of_text_fits hreads hls (show _ < DNS_RES_HOSTLEN + 100 by omega)
  have hcopy : (expanded ls).strlcpy (DNS_RES_HOSTLEN + 1) = expanded ls := by
    refine Dns.strlcpy_of_le ?_
    by_cases hne : ls = []
    · subst hne
      exact Nat.zero_le _
    · rw [CString.length, expanded_bytes hls hne]
      exact hlen
  have htype := hrec.get16_head
  have hdata : a.head + DNS_ANSWER_FIXED_SIZE = a.data := rfl
  refine ⟨(d.setQdcount 0).get32 (a.head + 4), ?_⟩
  rw [hwell.procAnswer, hproc, hr.procAnswers, htype, ha, hdata, if_pos (.inr (.inr rfl)), procRecord, if_neg (not_not.2 hasked),
    if_neg (by decide), if_neg (by decide), hexpand]
  dsimp only
  rw [if_neg (by omega), hcopy]

namespace Dns

open DnsEvloop

variable {nsaddrList : List SockaddrStorage} {domain : CString} {now : ℤ} {random : List UInt32}
variable {sendto : ℕ → Bool} {callbacks : List (List DnsSubmission)} {tr : List (Op × Unit)}
variable {xs ys : List DnsReslist} {name : CString} {query : DnsQuery} {type : ℤ}

/-- The request that a lookup of a name makes. -/
theorem gethostByname_asks (hold : ∀ q ∈ s.requestList, q.node < s.allocated) (name : CString) (query : DnsQuery)
    (type : ℤ) : Ends (· = .noId) (gethostByname lib name query type) s fun _ s' => s'.calls = s.calls ∧
      ∃ r', s'.requestList = s.requestList ++ [r'] ∧ r'.node = s.allocated ∧ r'.query = query ∧
        r'.queryname = hostName s.domain name ∧ r'.type = Int8.ofInt type := by
  rw [gethostByname, doQueryName, ends_bind, ends_get, ends_bind, ends_target hold rfl, ends_bind]
  refine Iff.mpr (ends_update_made hold rfl rfl) ?_
  refine (queryName_spec (at_made hold rfl)).mono fun _ s' h => ?_
  obtain ⟨-, r', packets, hsends, hv⟩ := h
  refine ⟨congrArg DnsRequests.calls hv, r', congrArg DnsRequests.list hv, ?_⟩
  cases hsends with
  | nothing => exact ⟨rfl, rfl, rfl, rfl⟩
  | packet id lastns _ => exact ⟨rfl, rfl, rfl, rfl⟩

/-- **The name that comes for an address is asked for.** In every state that a run comes
to, a reply that repeats the question for an address, and has a name of two labels
or more, makes a request for that name, for the same query, in the place of the
one for the address. Nothing is called back yet. -/
theorem honest_reverse_reply (hrun : Runs reslib (.init nsaddrList domain now random sendto callbacks) tr s)
    (hasked : r.type.toInt = DNS_T_PTR) {k₀ : CString} (haddr : r.addr.queryname = some k₀)
    (h : HonestReply s d r (queryPacket (ofTexts r.addr.reverseTexts) C_IN DNS_T_PTR) (before ++ a :: after))
    (hproper : Proper r.type.toInt (before ++ a :: after)) (hx : ∀ q ∈ before, q.passed r.type.toInt)
    (ha : a.type = DNS_T_PTR) {k : ℕ} (hreads : ((d.setQdcount 0).setAncount after.length).Reads a.data k ls)
    (hls : IsName ls) (htwo : 2 ≤ ls.length) (hlen : (nameText ls).length ≤ DNS_RES_HOSTLEN) :
    Ends (· = .noId) ((Op.datagram d).run reslib) s fun _ s' => s'.calls = s.calls ∧ (∀ q ∈ s'.requestList, q.node ≠ r.node) ∧
      ∃ r' ∈ s'.requestList, r'.query = r.query ∧ r'.queryname = expanded ls ∧
        r'.type = Int8.ofInt (if r.addr.family = .inet6 then DNS_T_AAAA else DNS_T_A) := by
  obtain ⟨hg, -⟩ := runs_keep (P := fun _ => True) good_init (fun _ _ _ _ _ => trivial) trivial hrun
  have hmem : r ∈ s.requestList := List.mem_of_find?_eq_some h.id
  have hreverse := r.addr.isName_reverseTexts
  have hname : r.queryname = expanded (ofTexts r.addr.reverseTexts) := by
    rw [← (hg.stable r hmem).number hasked k₀ haddr, SockaddrStorage.queryname_eq haddr]
  have hcheck := (checkQuestion_of_echo hreverse (hname ▸ r.addr.length_reverse_le) h.question).2 (by rw [hname])
  have hwell := h.wellFormed hreverse
  obtain ⟨ttl, hproc⟩ := procAnswer_ptr hwell hasked hproper hx ha hreads hls.text hlen
  have hcopied : (procAnswer reslib r d).2.nameFits = true := by
    refine (procAnswer_fits_iff (hg.stable r hmem).fits).2 (hostFits_of_address (hg.stable r hmem) (fun _ => ?_) d)
    rw [haddr]
    rfl
  have hrc : ¬ d.rc ≤ DNS_HEADER_SIZE := by
    have hwhole := h.question.whole
    rw [length_queryPacket, length_wire] at hwhole
    have hH : HFIXEDSIZE = DNS_HEADER_SIZE := rfl
    omega
  obtain ⟨xs, ys, hat⟩ := exists_at hg.toApart hmem
  have hv := resOurserver_view s d.lsin
  have hat' : (s.resOurserver d.lsin).2.At xs r ys := hat.congr (congrArg DnsRequests.list hv)
  have hap : (s.resOurserver d.lsin).2.view.Apart := hv ▸ hg.toApart
  let r₁ : DnsReslist := { r with ttl := ttl, name := some (expanded ls) }
  let s₁ : DnsEvloop := { (s.resOurserver d.lsin).2 with requestList := xs ++ r₁ :: ys }
  have hat₁ : s₁.At xs r₁ ys := hat'.changed rfl rfl
  have hap₁ : s₁.view.Apart := hap.changed hat'.list (rfl : r₁.node = r.node) rfl rfl
  have hdomain : s₁.domain = s.domain := congrArg DnsRequests.domain hv
  have hcalls : s₁.calls = s.calls := congrArg DnsRequests.calls hv
  rw [Op.run, resReadSingleReply, ends_bind, ends_get, if_neg hrc, h.id]
  dsimp only
  rw [ends_bind, ends_set, if_pos (resOurserver_of_serves h.server), if_pos hcheck, handleReply,
    if_neg (by rw [h.rcode, h.ancount]; simp), ends_bind, ends_request hat', ends_bind]
  refine (ends_update (f := fun _ => (procAnswer reslib r d).2) hat' (by rw [hproc])).2 ?_
  rw [if_pos hcopied, hproc, if_pos rfl, answered, ends_bind]
  refine (ends_request hat₁).2 ?_
  rw [if_pos hasked, ends_bind]
  refine (gethostByname_asks hap₁.old (expanded ls) r.query _).mono fun _ s₂ h₂ => ?_
  obtain ⟨hcalls₂, r', hlist, hnode, hq, hqname, htype⟩ := h₂
  have hat₂ : s₂.At xs r₁ (ys ++ [r']) := by
    refine ⟨by rw [hlist, hat₁.list, List.append_assoc]; rfl, hat₁.before, fun p hp => ?_⟩
    rcases List.mem_append.1 hp with hp | hp
    · exact hat₁.after p hp
    · rw [List.mem_singleton.1 hp, hnode]
      exact (hap₁.old r₁ hat₁.mem).ne'
  refine (ends_remRequest hat₂).2 ⟨hcalls₂.trans hcalls, fun p hp => ?_, r', by simp, hq, ?_, htype⟩
  · rcases List.mem_append.1 hp with hp | hp
    · exact hat₂.before p hp
    · exact hat₂.after p hp
  · rw [hqname, hdomain, hostName_expanded _ hls.text htwo hlen]

/-- The request for the name of 127.0.0.1. -/
def askingLocal : DnsReslist :=
  { askingA with
    type := 12
    queryname := SockaddrStorage.localName
    addr := SockaddrStorage.localAddress
    name := some (.ofBuffer [])
    nameSize := DNS_RES_HOSTLEN + 1 }

/-- The resolver was asked for the name of 127.0.0.1. -/
def waitingLocal : DnsEvloop :=
  { waiting with
    requestList := [askingLocal]
    packets := [⟨0, 5, SockaddrStorage.localName⟩] }

/-- A reply to the request with the id 5: the name is "a.b". -/
def replyLocal : DnsDatagram where
  header := ⟨5, DNS_NO_ERRORS, 1, 1⟩
  buf := fun n => (queryPacket (ofTexts SockaddrStorage.localAddress.reverseTexts) C_IN DNS_T_PTR ++
    [0xc0, 12, 0, 12, 0, 1, 0, 0, 0, 9, 0, 5, 1, 97, 1, 98, 0]).getD n 0
  rc := 57
  lsin := SockaddrStorage.localAddress

/-- It is asked for. -/
theorem step_lookLocal (hquery : lib.mkquery SockaddrStorage.localName 12 = true) :
    step lib idle (.submit (.byAddr SockaddrStorage.localAddress 7)) = some ((), waitingLocal) := by
  let s : DnsEvloop := { idle with submitted := 1 }
  let r : DnsReslist :=
    { fresh s ⟨7, 0⟩ with
      type := 12
      queryname := SockaddrStorage.localName
      addr := SockaddrStorage.localAddress
      name := some (.ofBuffer [])
      nameSize := DNS_RES_HOSTLEN + 1 }
  have hold : ∀ q ∈ s.requestList, q.node < s.allocated := nofun
  have hends : Ends (fun _ => False) (Op.run lib (.submit (.byAddr SockaddrStorage.localAddress 7))) idle fun _ s' => s' = waitingLocal := by
    rw [Op.run, submit, ends_bind, ends_get, ends_bind, ends_set]
    dsimp only
    rw [gethostByaddr, doQueryNumber, ends_bind]
    refine (@ends_target _ s _ _ _ hold rfl).2 ?_
    rw [SockaddrStorage.queryname_localAddress]
    dsimp only
    rw [ends_bind]
    refine (@ends_update_made _ s _ _ _ hold rfl rfl).2 ?_
    rw [queryName, ends_bind]
    refine (ends_request (at_made (s := s) (r := r) hold rfl)).2 ?_
    rw [if_pos hquery]
    rfl
  unfold step
  cases hrun : Op.run lib (.submit (.byAddr SockaddrStorage.localAddress 7)) idle with
  | ok r => exact congrArg (fun s => some ((), s)) (hends.of_ok hrun)
  | error e => exact absurd (hends.of_error hrun) not_false

theorem honestReply_replyLocal : HonestReply waitingLocal replyLocal askingLocal
    (queryPacket (ofTexts askingLocal.addr.reverseTexts) C_IN DNS_T_PTR) ([] ++ ⟨40, 2, DNS_T_PTR, 5⟩ :: []) where
  server := ⟨anyServer, List.mem_cons_self .., rfl, rfl, .inl ⟨rfl, .inr rfl⟩⟩
  id := rfl
  rcode := rfl
  question := ⟨rfl, by decide +kernel, by decide +kernel⟩
  ancount := rfl
  records := by
    have hstart : (queryPacket (ofTexts askingLocal.addr.reverseTexts) C_IN DNS_T_PTR).length = 40 := by decide +kernel
    have hname : (replyLocal.setQdcount 0).nameLength reslib 0 40 = 2 := by decide +kernel
    rw [hstart]
    exact .cons (r := ⟨40, 2, DNS_T_PTR, 5⟩) hname (by decide) (by decide +kernel) (by decide +kernel) (by decide) (.nil _)

/-- The labels of "a.b". -/
def labelsAB : List (List UInt8) := [[1, 97], [1, 98]]

theorem isName_labelsAB : IsName labelsAB := by
  refine ⟨fun l hl => ?_, by decide⟩
  rcases List.mem_cons.1 hl with rfl | hl
  · exact .mk' (t := [97]) (by decide) (by decide)
  · exact List.mem_singleton.1 hl ▸ .mk' (t := [98]) (by decide) (by decide)

theorem reads_labelsAB : ((replyLocal.setQdcount 0).setAncount 0).Reads 52 5 labelsAB := by
  refine ⟨0, LabelCode.NameAt.of_wire isName_labelsAB.isLabel ?_, by decide, by decide⟩
  have hdrop : (((replyLocal.setQdcount 0).setAncount 0).block.take 57).drop 52 = wire labelsAB := by decide +kernel
  exact hdrop ▸ List.prefix_refl _

theorem runs_waitingLocal : Runs reslib idle ([] ++ [(.submit (.byAddr SockaddrStorage.localAddress 7), ())]) waitingLocal :=
  .snoc .nil (by exact trivial) (step_lookLocal (by decide +kernel))

theorem proper_replyLocal : Proper askingLocal.type.toInt ([] ++ ⟨40, 2, DNS_T_PTR, 5⟩ :: []) :=
  fun _ hr _ => List.mem_singleton.1 hr ▸ (by decide +kernel)

theorem type_askingLocal : askingLocal.type.toInt = DNS_T_PTR := by decide +kernel

-- Nothing below looks into them; looked into, the run in the statement would be made.
attribute [irreducible] replyLocal waitingLocal

theorem honest_reverse_reply_localhost : Ends (· = .noId) ((Op.datagram replyLocal).run reslib) waitingLocal fun _ s' =>
    s'.calls = waitingLocal.calls ∧ (∀ q ∈ s'.requestList, q.node ≠ askingLocal.node) ∧
      ∃ r' ∈ s'.requestList, r'.query = askingLocal.query ∧ r'.queryname = expanded labelsAB ∧
        r'.type = Int8.ofInt (if askingLocal.addr.family = .inet6 then DNS_T_AAAA else DNS_T_A) :=
  @honest_reverse_reply waitingLocal askingLocal replyLocal labelsAB [] [] ⟨40, 2, DNS_T_PTR, 5⟩ [anyServer]
    ⟨[], CString.nul_free_nil⟩ 0 [5] (fun _ => true) [] _ runs_waitingLocal type_askingLocal _ SockaddrStorage.queryname_localAddress
    honestReply_replyLocal proper_replyLocal (fun x hx => absurd hx List.not_mem_nil) rfl _ reads_labelsAB isName_labelsAB
    (by decide) (by decide +kernel)

end Dns

end Mowgli
