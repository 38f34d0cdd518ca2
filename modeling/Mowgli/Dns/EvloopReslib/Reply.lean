import Mowgli.Dns.EvloopReslib.Resolver
/-!
# Replies that repeat the question

A nameserver repeats the question of the packet, with the id, and puts its records
behind it. If the name was written as it is printed, such a reply ends the
request: the callback is given the address. If not, no reply of the kind is ever
taken, and the request is left to time out.
-/

namespace Mowgli

open DnsName DnsDatagram Prog

variable {lib : Reslib} {d : DnsDatagram} {n current : ℕ} {packet buf : List UInt8} {ls : List (List UInt8)}

/-! ## Calls -/

section

variable {v v' : DnsRequests} {added : List DnsReslist}

/-- A submission calls nothing back. -/
theorem Submits.calls (h : Submits v added v') : v'.calls = v.calls := by
  induction h with
  | nil => rfl
  | snoc query r packets _ new ih => exact ih

end

namespace Dns

open DnsEvloop

variable {s s' : DnsEvloop} {xs ys : List DnsReslist} {r : DnsReslist}

/-- **A request that is completed** is called back, once and last, and is gone. -/
theorem complete_calls (hg : s.view.Apart) (h : s.At xs r ys) (reply : Option DnsReply) (result : DnsResult) :
    Ends (· = .noId) (complete lib r.node reply result) s fun _ s' =>
      s'.calls = s.calls ++ [⟨r.query, result, reply⟩] ∧ ∀ q ∈ s'.requestList, q.node ≠ r.node := by
  have hg' : DnsRequests.Apart { s.view with calls := s.calls ++ [⟨r.query, result, reply⟩] } := ⟨hg.nodup, hg.old⟩
  rw [complete, callback, ends_bind, ends_bind, ends_request h, ends_bind, ends_get, ends_bind, ends_set]
  refine (submitAll_spec _ hg').mono fun _ s' hs => ?_
  obtain ⟨-, added, -, hsub⟩ := hs
  have hlist : s'.requestList = xs ++ r :: (ys ++ added) := by
    rw [show s'.requestList = s.requestList ++ added from hsub.list, h.list, List.append_assoc]
    rfl
  have hat : s'.At xs r (ys ++ added) := at_of_apart (hg'.submits hsub) hlist
  refine (ends_remRequest hat).2 ⟨hsub.calls, fun q hq => ?_⟩
  rcases List.mem_append.1 hq with hq | hq
  · exact hat.before q hq
  · exact hat.after q hq

end Dns

/-! ## What decoding leaves -/

variable {request : DnsReslist} {type : ℤ} {rdLength : ℕ}

theorem procRecord_type (request : DnsReslist) (d : DnsDatagram) (type : ℤ) (rdLength current : ℕ) :
    (procRecord lib request d type rdLength current).2.type = request.type := by
  unfold procRecord
  dsimp only
  split_ifs <;> rfl

/-- A record that is no name leaves the name. -/
theorem procRecord_name (request : DnsReslist) (hasked : request.type.toInt ≠ DNS_T_PTR)
    (htype : type = DNS_T_A ∨ type = DNS_T_AAAA ∨ type = DNS_T_PTR) :
    (procRecord lib request d type rdLength current).2.name = request.name := by
  unfold procRecord
  dsimp only
  by_cases hne : request.type.toInt ≠ type
  · rw [if_pos hne]
  rw [if_neg hne]
  have hptr : type ≠ DNS_T_PTR := not_not.1 hne ▸ hasked
  by_cases hA : type = DNS_T_A
  · rw [if_pos hA]
    split_ifs <;> rfl
  · rw [if_neg hA, if_pos ((htype.resolve_left hA).resolve_right hptr)]
    split_ifs <;> rfl

theorem procAnswers_type (d : DnsDatagram) (n : ℕ) (request : DnsReslist) (current : ℕ) :
    (procAnswers lib d n request current).2.type = request.type := by
  induction n generalizing request current with
  | zero => rfl
  | succ n ih =>
    rw [procAnswers]
    dsimp only
    split_ifs
    · rfl
    · rfl
    · rfl
    · exact procRecord_type ..
    · exact ih ..
    · exact ih ..

theorem procAnswers_name (request : DnsReslist) (hasked : request.type.toInt ≠ DNS_T_PTR) (n current : ℕ) :
    (procAnswers lib d n request current).2.name = request.name := by
  induction n generalizing request current with
  | zero => rfl
  | succ n ih =>
    rw [procAnswers]
    dsimp only
    split_ifs with h₁ h₂ h₃ h₄
    · rfl
    · rfl
    · rfl
    · exact procRecord_name { request with ttl := d.get32 _ } hasked h₄
    · exact ih { request with ttl := d.get32 _ } hasked _
    · exact ih { request with ttl := d.get32 _ } hasked _

/-- Decoding a reply leaves the type that is asked for. -/
theorem procAnswer_type (request : DnsReslist) (d : DnsDatagram) : (procAnswer lib request d).2.type = request.type := by
  unfold procAnswer
  cases skipQuestions lib d d.header.qdcount DNS_HEADER_SIZE with
  | none => rfl
  | some current => exact procAnswers_type ..

theorem procAnswer_name (hasked : request.type.toInt ≠ DNS_T_PTR) (d : DnsDatagram) :
    (procAnswer lib request d).2.name = request.name := by
  unfold procAnswer
  cases skipQuestions lib d d.header.qdcount DNS_HEADER_SIZE with
  | none => rfl
  | some current => exact procAnswers_name request hasked _ _

/-! ## Replies that are taken -/

/-- A reply to the request `r`, from a nameserver, that repeats the question of the
packet and has the records `rs` behind that. -/
structure HonestReply (s : DnsEvloop) (d : DnsDatagram) (r : DnsReslist) (packet : List UInt8) (rs : List DnsRecord) :
    Prop where
  server : ∃ srv ∈ s.nsaddrList, srv.Serves d.lsin
  id : s.findId d.header.id = some r
  rcode : d.header.rcode = DNS_NO_ERRORS
  question : d.Echoes packet
  ancount : d.header.ancount = rs.length
  records : Records reslib (d.setQdcount 0) packet.length rs

/-- The one question is skipped, and the records are behind it. -/
theorem HonestReply.wellFormed {s : DnsEvloop} {r : DnsReslist} {rs : List DnsRecord} (hls : IsName ls)
    (h : HonestReply s d r (queryPacket ls C_IN type) rs) : WellFormed reslib d (queryPacket ls C_IN type).length rs := by
  refine ⟨?_, h.ancount, h.records⟩
  have hreads : (d.setQdcount 1).Reads DNS_HEADER_SIZE (wire ls).length ls :=
    DnsDatagram.Echoes.reads hls ⟨rfl, h.question.whole, h.question.question⟩
  have hH : HFIXEDSIZE = DNS_HEADER_SIZE := rfl
  have hQ : QFIXEDSIZE = DNS_QFIXEDSIZE := rfl
  rw [h.question.single, skipQuestions, dnSkipname_of_name hreads, length_queryPacket, hH, hQ]
  rw [if_neg (by omega), Int.toNat_natCast, skipQuestions]

namespace Dns

open DnsEvloop

variable {nsaddrList : List SockaddrStorage} {domain : CString} {now : ℤ} {random : List UInt32}
variable {sendto : ℕ → Bool} {callbacks : List (List DnsSubmission)} {tr : List (Op × Unit)}
variable {s s' : DnsEvloop} {xs ys : List DnsReslist} {r : DnsReslist} {rs before after : List DnsRecord} {a : DnsRecord}

theorem resOurserver_of_serves {inp : SockaddrStorage} (h : ∃ srv ∈ s.nsaddrList, srv.Serves inp) :
    (s.resOurserver inp).1 = true := by
  obtain ⟨srv, hmem, hserves⟩ := h
  unfold resOurserver
  cases hfind : s.nsaddrList.findIdx? fun srv => srv.serves inp with
  | none => exact absurd (SockaddrStorage.serves_iff.2 hserves) (by simpa using List.findIdx?_eq_none_iff.1 hfind srv hmem)
  | some ns => rfl

/-- What `handleReply` does with an address that was asked for. -/
theorem handleReply_address (hg : s.view.Apart) (h : s.At xs r ys) (hrcode : d.header.rcode = DNS_NO_ERRORS)
    (hfits : r.nameFits = true) (hasked : IsAddress r.type.toInt) (hacc : accepts lib r d = true) :
    Ends (· = .noId) (handleReply lib r.node d) s fun _ s' =>
      s'.calls = s.calls ++ [⟨r.query, .success, some ⟨r.name, (procAnswer lib r d).2.addr⟩⟩] ∧
        ∀ q ∈ s'.requestList, q.node ≠ r.node := by
  have hptr : r.type.toInt ≠ DNS_T_PTR := by
    rcases hasked with hA | hA <;> rw [hA] <;> decide
  unfold accepts at hacc
  rw [Bool.and_eq_true, decide_eq_true_eq] at hacc
  obtain ⟨hn, hq⟩ := @procAnswer_keeps lib r d
  have hdec : Decoded s xs r ys { s with requestList := xs ++ (procAnswer lib r d).2 :: ys } (procAnswer lib r d).2 :=
    ⟨h.list, hn, hq, rfl⟩
  rw [handleReply, if_neg (by rw [hrcode]; simpa using hacc.1), ends_bind, ends_request h, ends_bind,
    ends_update h hn, if_pos ((procAnswer_fits_iff hfits).2 fun h => absurd h hptr), if_pos hacc.2, ← hn, answered, ends_bind, ends_request (hdec.at hg), procAnswer_type, if_neg hptr]
  refine (complete_calls (hdec.apart hg) (hdec.at hg) _ _).mono fun _ s' hs => ?_
  rw [makeDnsreply, procAnswer_name hptr, hq] at hs
  exact hs

/-! ## A resolver that was asked -/

/-- The request for a name. -/
def askingFor (name : CString) (type : ℤ) : DnsReslist :=
  { askingA with type := .ofInt type, queryname := name, name := some name, nameSize := name.length + 1 }

/-- The resolver was asked for a name. -/
def waitingFor (name : CString) (type : ℤ) : DnsEvloop :=
  { waiting with
    requestList := [askingFor name type]
    packets := [⟨0, 5, name⟩] }

/-- A resolver without a local domain asks for the name as it is. -/
theorem step_lookFor {name : CString} {type : ℤ} (hlen : name.length ≤ DNS_RES_HOSTLEN)
    (hquery : lib.mkquery name (.ofInt type) = true) :
    step lib idle (.submit (.byName name 7 type)) = some ((), waitingFor name type) := by
  let s : DnsEvloop := { idle with submitted := 1 }
  let r : DnsReslist :=
    { fresh s ⟨7, 0⟩ with type := .ofInt type, queryname := name, name := some name, nameSize := name.length + 1 }
  have hold : ∀ q ∈ s.requestList, q.node < s.allocated := nofun
  have hhost : addLocalDomain idle.domain (name.strlcpy (DNS_RES_HOSTLEN + 1)) DNS_RES_HOSTLEN = name := by
    rw [strlcpy_of_le hlen, addLocalDomain, if_neg]
    exact fun h => h.2.1 rfl
  have hends : Ends (fun _ => False) (Op.run lib (.submit (.byName name 7 type))) idle
      fun _ s' => s' = waitingFor name type := by
    rw [Op.run, submit, ends_bind, ends_get, ends_bind, ends_set]
    dsimp only
    rw [gethostByname, doQueryName, ends_bind, ends_get, hhost]
    dsimp only
    rw [strlcpy_of_le hlen, ends_bind]
    refine (@ends_target _ s _ _ _ hold rfl).2 ?_
    rw [ends_bind]
    refine (@ends_update_made _ s _ _ _ hold rfl rfl).2 ?_
    rw [queryName, ends_bind]
    refine (ends_request (at_made (s := s) (r := r) hold rfl)).2 ?_
    rw [if_pos hquery]
    rfl
  unfold step
  cases hrun : Op.run lib (.submit (.byName name 7 type)) idle with
  | ok r => exact congrArg (fun s => some ((), s)) (hends.of_ok hrun)
  | error e => exact absurd (hends.of_error hrun) not_false

/-- **A request is answered.** In every state that a run comes to, a reply that repeats
the question of the packet for a request, and has an address of the type that was
asked for, behind records that are got past, ends the request: its callback is
given that address. This needs the name to be written as it is printed. -/
theorem honest_reply (hrun : Runs reslib (.init nsaddrList domain now random sendto callbacks) tr s)
    (hquery : resMkquery r.queryname C_IN r.type.toInt buf = some (some (n, packet))) (hprinted : Printed r.queryname)
    (h : HonestReply s d r (packet.take n) (before ++ a :: after)) (hasked : IsAddress r.type.toInt)
    (hproper : Proper r.type.toInt (before ++ a :: after)) (hx : ∀ x ∈ before, x.passed r.type.toInt)
    (ha : a.answers r.type.toInt) :
    Ends (· = .noId) ((Op.datagram d).run reslib) s fun _ s' =>
      s'.calls = s.calls ++ [⟨r.query, .success, some ⟨r.name, stored r d a⟩⟩] ∧ ∀ q ∈ s'.requestList, q.node ≠ r.node := by
  obtain ⟨hg, -⟩ := runs_keep (P := fun _ => True) good_init (fun _ _ _ _ _ => trivial) trivial hrun
  have hmem : r ∈ s.requestList := List.mem_of_find?_eq_some h.id
  have hlen : r.queryname.length ≤ DNS_RES_HOSTLEN := by
    obtain ⟨name, -, hhost⟩ := (hg.stable r hmem).named
    rw [← hhost hasked]
    exact length_strlcpy_le _ _
  have hcheck := (checkQuestion_echo hquery hlen h.question).2 hprinted
  obtain ⟨q, ls, -, hls, rfl, htake⟩ := resMkquery_eq_some hquery
  rw [htake] at h
  have hwell := h.wellFormed hls
  have hrec := (hwell.records.walk 0 hproper hx).1
  obtain ⟨hacc, haddr⟩ := hwell.decoded hasked hproper hx (hrec.room_of_answers ha) (DnsRecord.type_of_answers ha)
  have hrc : ¬ d.rc ≤ DNS_HEADER_SIZE := by
    have hwhole := h.question.whole
    rw [length_queryPacket, length_wire] at hwhole
    have hH : HFIXEDSIZE = DNS_HEADER_SIZE := rfl
    omega
  obtain ⟨xs, ys, hat⟩ := exists_at hg.toApart hmem
  have hv := resOurserver_view s d.lsin
  have hat' : (s.resOurserver d.lsin).2.At xs r ys := hat.congr (congrArg DnsRequests.list hv)
  rw [Op.run, resReadSingleReply, ends_bind, ends_get, if_neg hrc, h.id]
  dsimp only
  rw [ends_bind, ends_set, if_pos (resOurserver_of_serves h.server), if_pos hcheck]
  refine (handleReply_address (hv ▸ hg.toApart) hat' h.rcode (hg.stable r hmem).fits hasked (hacc.trans ha)).mono fun _ s' hs => ?_
  rw [haddr ha, show (s.resOurserver d.lsin).2.calls = s.calls from congrArg DnsRequests.calls hv] at hs
  exact hs

/-- The labels of "a". -/
def labelsA : List (List UInt8) := [[1, 97]]

/-- A reply to the request with the id 5: "a" is 127.0.0.1, and the name is a pointer to
that of the question. -/
def addressA : DnsDatagram where
  header := ⟨5, DNS_NO_ERRORS, 1, 1⟩
  buf := fun n => (List.replicate 12 (0 : UInt8) ++ [1, 97, 0, 0, 1, 0, 1] ++
    [0xc0, 12, 0, 1, 0, 1, 0, 0, 0, 9, 0, 4, 127, 0, 0, 1]).getD n 0
  rc := 35
  lsin := { anyServer with sinAddr := localhost }

/-- The packet that asks for "a", in a block with a byte to spare. -/
def packetA : List UInt8 := [0, 0, 1, 0, 0, 1, 0, 0, 0, 0, 0, 0, 1, 97, 0, 0, 1, 0, 1, 0]

theorem resMkquery_nameA : resMkquery nameA C_IN 1 (List.replicate 20 0) = some (some (19, packetA)) := by decide +kernel

theorem isName_labelsA : IsName labelsA := ⟨fun l hl => List.mem_singleton.1 hl ▸ .mk' (t := [97]) (by decide) (by decide), by decide⟩

theorem printed_nameA : Printed nameA := ⟨false, labelsA, by decide, isName_labelsA, rfl⟩

theorem echoes_packetA : addressA.Echoes (packetA.take 19) where
  single := rfl
  whole := by decide
  question := by decide

theorem records_addressA : Records reslib (addressA.setQdcount 0) 19 [⟨19, 2, DNS_T_A, 4⟩] := by
  have hname : (addressA.setQdcount 0).nameLength reslib 0 19 = 2 := by decide +kernel
  exact .cons (r := ⟨19, 2, DNS_T_A, 4⟩) hname (by decide) (by decide) (by decide) (by decide) (.nil _)

theorem honestReply_addressA : HonestReply (waitingFor nameA DNS_T_A) addressA (askingFor nameA DNS_T_A) (packetA.take 19)
    ([] ++ ⟨19, 2, DNS_T_A, 4⟩ :: []) where
  server := ⟨anyServer, List.mem_cons_self .., rfl, rfl, .inl ⟨rfl, .inr rfl⟩⟩
  id := rfl
  rcode := rfl
  question := echoes_packetA
  ancount := rfl
  records := records_addressA

theorem runs_waitingFor {name : CString} {type : ℤ} (hlen : name.length ≤ DNS_RES_HOSTLEN)
    (hquery : reslib.mkquery name (.ofInt type) = true) :
    Runs reslib idle ([] ++ [(.submit (.byName name 7 type), ())]) (waitingFor name type) :=
  .snoc .nil (by exact trivial) (step_lookFor hlen hquery)

theorem honest_reply_localhost : Ends (· = .noId) ((Op.datagram addressA).run reslib) (waitingFor nameA DNS_T_A) fun _ s' =>
    s'.calls = (waitingFor nameA DNS_T_A).calls ++
      [⟨⟨7, 0⟩, .success, some ⟨some nameA, stored (askingFor nameA DNS_T_A) addressA ⟨19, 2, DNS_T_A, 4⟩⟩⟩] ∧
        ∀ q ∈ s'.requestList, q.node ≠ (askingFor nameA DNS_T_A).node :=
  honest_reply (runs_waitingFor (by decide) (by decide +kernel)) resMkquery_nameA printed_nameA honestReply_addressA (.inl rfl) (by simp [Proper]; decide)
    (fun x hx => absurd hx List.not_mem_nil) (by decide)

/-! ## A name that does not fit -/

/-- A reply to the request with the id 5, for the name of "a": it is "b.c". -/
def hostA : DnsDatagram where
  header := ⟨5, DNS_NO_ERRORS, 1, 1⟩
  buf := fun n => (List.replicate 12 (0 : UInt8) ++ [1, 97, 0, 0, 12, 0, 1] ++
    [0xc0, 12, 0, 12, 0, 1, 0, 0, 0, 9, 0, 5, 1, 98, 1, 99, 0]).getD n 0
  rc := 36
  lsin := { anyServer with sinAddr := localhost }

theorem comesToAnswer_hostA : ComesToAnswer reslib (waitingFor nameA DNS_T_PTR) hostA (askingFor nameA DNS_T_PTR) where
  long := by decide
  id := rfl
  server := by decide +kernel
  question := by decide +kernel
  rcode := rfl
  answers := by decide

theorem recordAt_hostA : (hostA.setQdcount 0).RecordAt reslib 0 19 21 := by
  have hname : (hostA.setQdcount 0).nameLength reslib 0 19 = 2 := by decide +kernel
  refine ⟨by decide, ?_, ?_, by decide⟩
  · rw [hname]
    decide
  · rw [hname]
    rfl

/-- "b.c". -/
def nameBC : CString := ⟨[98, 46, 99], by decide⟩

/-- The block of `request->name` has two bytes, for "a". -/
theorem not_fits_hostA : ¬ (Op.datagram hostA).Fits reslib (waitingFor nameA DNS_T_PTR) := fun h => by
  have hexpand : reslib.dnExpand ((hostA.setQdcount 0).setAncount 0) (21 + DNS_ANSWER_FIXED_SIZE) (DNS_RES_HOSTLEN + 100) =
      (5, nameBC) := by decide +kernel
  have hfits := h _ comesToAnswer_hostA (by decide) 19 (by decide +kernel) 0 19 21 .start recordAt_hostA (by decide) 5 nameBC
    hexpand (by decide)
  exact absurd hfits (by decide)

/-- **No reply is taken** that repeats the question of a packet for a name with a dot at
its end: whatever else is in the reply, the requests are left as they were. -/
theorem fullyQualified_reply {w : List UInt8} (hqualified : nsNamePton r.queryname NS_MAXCDNAME = done (true, w))
    (hquery : resMkquery r.queryname C_IN r.type.toInt buf = some (some (n, packet)))
    (hid : s.findId d.header.id = some r) (h : d.Echoes (packet.take n)) :
    Ends (· = .noId) ((Op.datagram d).run reslib) s fun _ s' => s'.view = s.view := by
  have hcheck : ¬ checkQuestion reslib r d = true := fun hcheck =>
    not_printed_of_qualified hqualified (printed_of_echo hquery h hcheck)
  have hv := resOurserver_view s d.lsin
  rw [Op.run, resReadSingleReply, ends_bind, ends_get]
  by_cases hrc : d.rc ≤ DNS_HEADER_SIZE
  · rw [if_pos hrc]
    rfl
  rw [if_neg hrc, hid]
  dsimp only
  rw [ends_bind, ends_set]
  by_cases hours : (s.resOurserver d.lsin).1 = true
  · rw [if_pos hours, if_neg hcheck]
    exact hv
  · rw [if_neg hours]
    exact hv

/-- "a.". -/
def nameADot : CString := fullyQualified labelsA

theorem resMkquery_nameADot : resMkquery nameADot C_IN 1 (List.replicate 20 0) = some (some (19, packetA)) := by decide +kernel

theorem fullyQualified_reply_dot :
    Ends (· = .noId) ((Op.datagram addressA).run reslib) (waitingFor nameADot DNS_T_A) fun _ s' => s'.view = (waitingFor nameADot DNS_T_A).view :=
  fullyQualified_reply (r := askingFor nameADot DNS_T_A) (nsNamePton_fullyQualified isName_labelsA (by decide))
    resMkquery_nameADot rfl echoes_packetA

end Dns

end Mowgli
