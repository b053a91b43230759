import FacetFS.SmbResponse

/-! # What a directory listing of the SMB server says

Names are selected by a pattern, each is encoded in the layout of its information class, and times
are counted from 1601. -/
namespace SmbListing

open SmbState SmbPath SmbWire SmbResponse LittleEndian

section Times

end Times

end SmbListing
