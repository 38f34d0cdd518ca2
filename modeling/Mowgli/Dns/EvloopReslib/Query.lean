import Mowgli.Dns.EvloopReslib.Pack
/-!
# Queries

`mowgli_dns_res_mkquery` makes a packet for each text that is a name: the header, the
labels of the name in one piece, the type and the class. There is room for all
of them in the buffer of `query_name`.
-/

namespace Mowgli

namespace DnsName

variable {m msg msg' buf : List UInt8} {dst n : ℕ} {ds ls : List (List UInt8)} {earlier later : Option (List ℕ)}
  {q : Bool} {dname : CString} {queryClass type : ℤ}

/-- `MOWGLI_DNS_C_IN`. -/
def C_IN : ℤ := 1

/-- `MOWGLI_DNS_MAXPACKET`. -/
def MAXPACKET : ℕ := 1024

/-- The packet that asks for a name, with 0 for the id. -/
def queryPacket (ls : List (List UInt8)) (queryClass type : ℤ) : List UInt8 :=
  [0, 0, 1, 0, 0, 1, 0, 0, 0, 0, 0, 0] ++ wire ls ++ (put16 type ++ put16 queryClass)

theorem length_put16 (s : ℤ) : (put16 s).length = 2 := rfl

theorem length_queryPacket : (queryPacket ls queryClass type).length = HFIXEDSIZE + (wire ls).length + QFIXEDSIZE := by
  rw [queryPacket, List.length_append, List.length_append, List.length_append, length_put16, length_put16]
  rfl

/-- **Without an earlier name**, a name is put in the message as it is. -/
theorem PackedAt.wire_eq (h : PackedAt earlier ds msg dst n msg' later) (h0 : earlier.getD [] = []) :
    n = (wire ds).length ∧ msg'.take (dst + n) = msg.take dst ++ wire ds := by
  obtain ⟨ls, c, hname, -, -, hexact⟩ := h.name
  obtain ⟨rfl, rfl⟩ := hexact h0
  obtain ⟨hpre, hend⟩ := hname.wire_prefix
  have hend : dst + n = dst + (wire ls).length := hend
  have hbounds := hname.bounds
  have hn : n = (wire ls).length := by omega
  refine ⟨hn, ?_⟩
  rw [List.length_take] at hbounds
  have hlen : (wire ls).length = ((msg'.take (dst + n)).drop dst).length := by
    rw [List.length_drop, List.length_take]
    omega
  have hdrop : (msg'.take (dst + n)).drop dst = wire ls := (hpre.eq_of_length hlen).symm
  have htake : (msg'.take (dst + n)).take dst = msg.take dst := by
    rw [List.take_take, min_eq_left (Nat.le_add_right ..), h.before]
  rw [← htake, ← hdrop, List.take_append_drop]

/-- What is stored in front of the place up to which a block is known. -/
theorem take_of_store_before {data : List UInt8} {i k : ℕ} (h : Bytes.store msg i data = some msg')
    (hk : i + data.length ≤ k) (hm : m = msg.take k) :
    msg'.take k = m.take i ++ data ++ m.drop (i + data.length) := by
  obtain ⟨hle, rfl⟩ := Bytes.store_eq_some h
  subst hm
  have hi : (msg.take i).length = i := by
    rw [List.length_take]
    omega
  rw [List.take_take, min_eq_left (by omega), List.drop_take, List.append_assoc, List.append_assoc,
    List.take_append, List.take_append, hi, List.take_of_length_le (by omega : (msg.take i).length ≤ k),
    List.take_of_length_le (by omega : data.length ≤ k - i)]
  congr 3
  omega

/-- The packet that is made when the name was put behind the header. -/
theorem resMkquery_of_packed (queryClass type : ℤ) {buf₁ buf₂ : List UInt8} (hheader : Bytes.store buf 0 queryHeader = some buf₁)
    (hcomp : dnComp dname buf₁ HFIXEDSIZE (buf₁.length - HFIXEDSIZE - QFIXEDSIZE) (some []) (some 20) =
      done (n, buf₂, later)) (hpacked : PackedAt (some []) ls buf₁ HFIXEDSIZE n buf₂ later)
    (hroom : HFIXEDSIZE + n + QFIXEDSIZE ≤ buf.length) :
    ∃ buf', resMkquery dname queryClass type buf = some (some ((queryPacket ls queryClass type).length, buf')) ∧
      buf'.take (queryPacket ls queryClass type).length = queryPacket ls queryClass type := by
  have hH : HFIXEDSIZE = 12 := rfl
  have hQ : QFIXEDSIZE = 4 := rfl
  have hlen₁ := Bytes.length_of_store hheader
  have htake₁ : buf₁.take 12 = queryHeader := Bytes.take_of_store hheader
  obtain ⟨rfl, htake₂⟩ := hpacked.wire_eq rfl
  have hlen₂ := hpacked.length
  obtain ⟨buf₃, hquestion⟩ := Bytes.exists_store buf₂ (12 + (wire ls).length) (put16 type ++ put16 queryClass)
    (by rw [List.length_append, length_put16, length_put16]; omega)
  have hlen₃ := Bytes.length_of_store hquestion
  obtain ⟨buf₄, hcount⟩ := Bytes.exists_store buf₃ 4 [0, 1] (by change 4 + 2 ≤ _; omega)
  refine ⟨buf₄, ?_, ?_⟩
  · rw [resMkquery, if_neg (by omega), hheader]
    dsimp only
    rw [if_neg (by omega), hcomp, length_queryPacket]
    simp only [done, hH, hquestion, hcount, Option.bind_some, Option.map_some]
  · have htake₃ := Bytes.take_of_store hquestion
    have hname : buf₂.take (12 + (wire ls).length) = queryHeader ++ wire ls := htake₂.trans (by rw [hH, htake₁])
    rw [hname] at htake₃
    rw [length_queryPacket]
    -- `hp->qdcount` is in front of the name
    exact take_of_store_before hcount (by change 4 + 2 ≤ _; omega) htake₃.symm

/-- **A text that is a name is asked for**, in a buffer with a byte to spare. -/
theorem resMkquery_of_name (queryClass type : ℤ) (hpton : nsNamePton dname NS_MAXCDNAME = done (q, wire ls)) (hls : IsName ls)
    (hroom : HFIXEDSIZE + (wire ls).length + QFIXEDSIZE < buf.length) :
    ∃ buf', resMkquery dname queryClass type buf = some (some ((queryPacket ls queryClass type).length, buf')) ∧
      buf'.take (queryPacket ls queryClass type).length = queryPacket ls queryClass type := by
  have hH : HFIXEDSIZE = 12 := rfl
  obtain ⟨buf₁, hheader⟩ := Bytes.exists_store buf 0 queryHeader (by change 0 + 12 ≤ _; omega)
  have hlen₁ := Bytes.length_of_store hheader
  have hsize := hls.size
  have hnone : Saved (buf₁.take HFIXEDSIZE) ((some []).getD []) := fun p hp => absurd hp List.not_mem_nil
  have hsizes : HFIXEDSIZE + (buf₁.length - HFIXEDSIZE - QFIXEDSIZE) ≤ buf₁.length := by omega
  rcases nsNamePack_spec [] (some 20) hls.isLabel hnone hsizes with ⟨n, buf₂, later, hpack, hn, hpacked⟩ | ⟨-, h | h⟩
  · have hcomp : dnComp dname buf₁ HFIXEDSIZE (buf₁.length - HFIXEDSIZE - QFIXEDSIZE) (some []) (some 20) =
        done (n, buf₂, later) := by
      rw [dnComp, hpton]
      rw [List.append_nil] at hpack
      exact hpack
    exact resMkquery_of_packed queryClass type hheader hcomp hpacked (by omega)
  · omega
  · omega

/-- **What is asked for is a name**: where there is a packet, the text is a name, and
the packet asks for its labels. -/
theorem resMkquery_eq_some {buf' : List UInt8} (h : resMkquery dname queryClass type buf = some (some (n, buf'))) :
    ∃ q ls, nsNamePton dname NS_MAXCDNAME = done (q, wire ls) ∧ IsName ls ∧
      n = (queryPacket ls queryClass type).length ∧ buf'.take n = queryPacket ls queryClass type := by
  have hsome := h
  unfold resMkquery at h
  by_cases hshort : buf.length < HFIXEDSIZE
  · rw [if_pos hshort] at h
    cases h
  rw [if_neg hshort] at h
  cases hheader : Bytes.store buf 0 queryHeader with
  | none =>
    rw [hheader] at h
    cases h
  | some buf₁ =>
    have hlen₁ := Bytes.length_of_store hheader
    rw [hheader] at h
    dsimp only at h
    by_cases hshort' : buf₁.length < HFIXEDSIZE + QFIXEDSIZE
    · rw [if_pos hshort'] at h
      cases h
    rw [if_neg hshort'] at h
    rcases hcomp : dnComp dname buf₁ HFIXEDSIZE (buf₁.length - HFIXEDSIZE - QFIXEDSIZE) (some []) (some 20) with
      _ | e | ⟨n', buf₂, later⟩
    · rw [hcomp] at h
      cases h
    · rw [hcomp] at h
      cases h
    · obtain ⟨q, ls, hpton, hls, hn, hpacked⟩ := dnComp_eq_done (fun p hp => absurd hp List.not_mem_nil) (by omega) hcomp
      obtain ⟨buf'', heq, htake⟩ := resMkquery_of_packed queryClass type hheader hcomp hpacked
        (by omega)
      rw [hsome] at heq
      obtain ⟨rfl, rfl⟩ := Prod.mk.inj (Option.some.inj (Option.some.inj heq))
      exact ⟨q, ls, hpton, hls, rfl, htake⟩

/-- **A packet is made exactly for a name**: a buffer that is large enough for any name
gets the packet that asks for the labels `ls` if and only if the text is read as
these. -/
theorem resMkquery_iff (hls : IsName ls) (hroom : HFIXEDSIZE + NS_MAXCDNAME + QFIXEDSIZE < buf.length) :
    (∃ n buf', resMkquery dname queryClass type buf = some (some (n, buf')) ∧ buf'.take n = queryPacket ls queryClass type) ↔
      ∃ q, nsNamePton dname NS_MAXCDNAME = done (q, wire ls) := by
  constructor
  · rintro ⟨n, buf', heq, htake⟩
    obtain ⟨q, ls', hpton, hls', -, htake'⟩ := resMkquery_eq_some heq
    have hpackets := htake.symm.trans htake'
    rw [queryPacket, queryPacket, List.append_assoc, List.append_assoc, List.append_cancel_left_eq] at hpackets
    have hwire := (List.append_inj' hpackets rfl).1
    exact ⟨q, hwire ▸ hpton⟩
  · rintro ⟨q, hpton⟩
    have hsize := hls.size
    obtain ⟨buf', heq, htake⟩ := resMkquery_of_name queryClass type hpton hls
      (show HFIXEDSIZE + (wire ls).length + QFIXEDSIZE < buf.length by omega)
    exact ⟨_, buf', heq, htake⟩

/-- "a" is asked for. -/
theorem resMkquery_iff_a : (∃ n buf', resMkquery ⟨[97], by decide⟩ C_IN 1 (List.replicate MAXPACKET 0) = some (some (n, buf')) ∧
    buf'.take n = queryPacket [[1, 97]] C_IN 1) ↔
      ∃ q, nsNamePton ⟨[97], by decide⟩ NS_MAXCDNAME = done (q, wire [[1, 97]]) := by
  have hls : IsName [[1, 97]] := ⟨fun l hl => List.mem_singleton.1 hl ▸ .mk' (t := [97]) (by decide) (by decide), by decide⟩
  exact resMkquery_iff hls (by rw [List.length_replicate]; decide)

end DnsName

end Mowgli
