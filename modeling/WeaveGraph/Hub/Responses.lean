import WeaveGraph.Hub.Pull

/-!
# Responses, whole and cut

`write_response` with any status, reason and headers of one line each, read by `parse_response`.
A whole response is read back as it was written; of a cut one the client notices only that the
head is not whole:

    parseResponse (r.write.take k) = if r.headLength ≤ k then .ok … else .error …      (parse_take)

so every proper beginning of the response is refused exactly if there is no body.
-/

namespace WeaveGraph.Hub

open List Lib

/-- The arguments of `write_response`. -/
structure Reply where
  status : UInt16
  reason : String
  extraHeaders : List (String × String)
  body : Bytes
  reasonLine : '\n' ∉ reason.toList
  headerLines : ∀ h ∈ extraHeaders, '\n' ∉ h.1.toList ∧ '\n' ∉ h.2.toList

namespace Reply

def statusLine (r : Reply) : String :=
  "HTTP/1.1 " ++ toString r.status.toNat ++ " " ++ r.reason

def contentLength (r : Reply) : String := "Content-Length: " ++ toString r.body.length

def firstLines (r : Reply) : List String :=
  r.statusLine :: "Connection: close" :: r.extraHeaders.map Served.headerLine

def headLines (r : Reply) : List String := r.firstLines ++ [r.contentLength]

def head (r : Reply) : String := String.intercalate "\r\n" r.headLines

def headLength (r : Reply) : Nat :=
  (Wire.endedLines (r.headLines.map Wire.encode)).length + 2

def write (r : Reply) : Bytes :=
  Wire.endedLines (r.headLines.map Wire.encode) ++ (Wire.crlf ++ r.body)

/-! ## Reading a head back -/

section

variable (r : Reply)

theorem statusLine_plain : '\n' ∉ r.statusLine.toList := by
  simp only [statusLine, String.toList_append, mem_append, not_or]
  exact ⟨⟨⟨by decide, toString_plain _⟩, by decide⟩, r.reasonLine⟩

theorem contentLength_eq : r.contentLength = "Content-Length: " ++ toString r.body.length := by
  rfl

theorem contentLength_plain : '\n' ∉ r.contentLength.toList := by
  rw [contentLength_eq, String.toList_append, mem_append, not_or]
  exact ⟨by decide, toString_plain _⟩

theorem firstLines_plain {line : String} (h : line ∈ r.firstLines) :
    line ≠ "" ∧ '\n' ∉ line.toList := by
  simp only [firstLines, mem_cons, mem_map] at h
  rcases h with rfl | rfl | ⟨h, hh, rfl⟩
  · exact ⟨by simp [statusLine], r.statusLine_plain⟩
  · decide
  · obtain ⟨h1, h2⟩ := r.headerLines h hh
    exact ⟨by simp [Served.headerLine], headerLine_plain h1 h2⟩

theorem headLines_plain {line : String} (h : line ∈ r.headLines) :
    line ≠ "" ∧ '\n' ∉ line.toList := by
  rcases mem_append.mp h with h | h
  · exact r.firstLines_plain h
  · obtain rfl := mem_singleton.mp h
    exact ⟨by simp [contentLength_eq], r.contentLength_plain⟩

theorem statusOf_head : statusOf r.head = some r.status.toNat := by
  have hhead : (Text.lines r.head).head? = some r.statusLine := by
    unfold head headLines firstLines
    rw [cons_append, cons_append, String.intercalate_cons_cons]
    exact Text.head?_lines r.statusLine_plain _
  exact statusOf_line r.status.toNat_lt hhead

theorem lines_head : Text.lines r.head = r.headLines := by
  refine Text.lines_intercalate_crlf (fun s hs => (r.firstLines_plain hs).2)
    r.contentLength_plain ?_
  obtain ⟨c, hlast, hdigit⟩ := Text.getLast?_toString r.body.length
  refine ⟨c, ?_, ?_⟩
  · rw [contentLength_eq, String.toList_append, getLast?_append, hlast]
    rfl
  · rintro rfl
    simp at hdigit

theorem parse_take (k : Nat) : parseResponse (r.write.take k) =
      if r.headLength ≤ k then
        .ok (r.status.toNat, r.head, r.body.take (k - r.headLength))
      else .error (.malformedResponse "no header/body separator") :=
  parseResponse_lines (cons_ne_nil _ _) (fun _ => r.headLines_plain) r.statusOf_head r.body k

theorem length_write : r.write.length = r.headLength + r.body.length := by
  simp only [write, headLength, length_append]
  have hcrlf : Wire.crlf.length = 2 := rfl
  omega

end

/-- Status, header lines and body come back as they were written. -/
def ReadsBack (r : Reply) : Prop :=
  ∃ head, parseResponse r.write = .ok (r.status.toNat, head, r.body) ∧ Text.lines head = r.headLines

/-- What does not reach the end of the response is refused. -/
def RefusesCuts (r : Reply) : Prop :=
  ∀ cut, cut <+: r.write → cut ≠ r.write → ∃ e, parseResponse cut = .error e

theorem readsBack (r : Reply) : r.ReadsBack := by
  refine ⟨r.head, ?_, r.lines_head⟩
  have htake := r.parse_take r.write.length
  rw [take_length] at htake
  have hle : r.headLength ≤ r.write.length := by
    rw [length_write]
    omega
  rw [htake, if_pos hle, length_write, Nat.add_sub_cancel_left, take_length]

theorem refusesCuts_iff (r : Reply) : r.RefusesCuts ↔ r.body = [] := by
  have hlen := r.length_write
  constructor
  · intro h
    by_contra hbody
    have hpos : 0 < r.body.length := length_pos_iff.mpr hbody
    have hne : r.write.take r.headLength ≠ r.write := by
      intro heq
      have := congrArg List.length heq
      rw [length_take] at this
      omega
    obtain ⟨e, he⟩ := h _ (List.take_prefix _ _) hne
    rw [parse_take, if_pos (Nat.le_refl _)] at he
    cases he
  · intro hbody cut hcut hne
    obtain ⟨rest, hrest⟩ := hcut
    have htake : cut = r.write.take cut.length := by rw [← hrest, take_left]
    have hshort : cut.length < r.write.length := by
      have hpos : 0 < rest.length := by
        rw [length_pos_iff]
        rintro rfl
        exact hne (by rw [← hrest, append_nil])
      rw [← hrest, length_append]
      omega
    rw [hlen, hbody, length_nil] at hshort
    rw [htake, parse_take, if_neg (by omega)]
    exact ⟨_, rfl⟩

/-- A whole response is read back; the client refuses all that is less exactly if there is no
body. -/
theorem reads_whole_iff (r : Reply) : r.ReadsBack ∧ (r.ReadsBack ∧ r.RefusesCuts ↔ r.body = []) :=
  ⟨r.readsBack, ⟨fun h => r.refusesCuts_iff.mp h.2,
    fun h => ⟨r.readsBack, r.refusesCuts_iff.mpr h⟩⟩⟩

theorem ok_plain : '\n' ∉ "OK".toList := by decide

theorem no_headers_plain :
    ∀ h ∈ ([] : List (String × String)), '\n' ∉ h.1.toList ∧ '\n' ∉ h.2.toList :=
  forall_mem_nil _

def snapshot : Reply := ⟨200, "OK", [], [1, 2], ok_plain, no_headers_plain⟩

theorem snapshot_cut :
    ∃ cut, cut <+: snapshot.write ∧ cut ≠ snapshot.write ∧
      parseResponse cut = .ok (200, snapshot.head, [1]) := by
  refine ⟨snapshot.write.take (snapshot.headLength + 1), take_prefix _ _, ?_, ?_⟩
  · intro heq
    have hlen := congrArg List.length heq
    rw [length_take, length_write] at hlen
    have hbody : snapshot.body.length = 2 := rfl
    omega
  · rfl

end Reply

end WeaveGraph.Hub
