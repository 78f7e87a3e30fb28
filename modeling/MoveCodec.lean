import MoveCodec.Codec.Entry
import MoveCodec.Main
import MoveCodec.Proofs.Assembly.Construction
import MoveCodec.Proofs.Codec.RoundTrip
import MoveCodec.Proofs.Storage.Survival
import MoveCodec.Proofs.Types.NativeLayout
import MoveCodec.Proofs.Package.Termination
import MoveCodec.Proofs.Package.Echo
import MoveCodec.Proofs.Package.Instantiation
import MoveCodec.Proofs.Storage.WriteBack
import MoveCodec.Proofs.Storage.Routines
import MoveCodec.Proofs.Codec.CallFrames
import MoveCodec.Proofs.Codec.Variants
import MoveCodec.Proofs.Manifest.Names
import MoveCodec.Proofs.Types.Listing
import MoveCodec.Proofs.Wire.HeadSizes
