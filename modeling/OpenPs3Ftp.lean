import OpenPs3Ftp.Gate
import OpenPs3Ftp.Aborts
import OpenPs3Ftp.Wire
import OpenPs3Ftp.Spoken
import OpenPs3Ftp.Pool
import OpenPs3Ftp.Bounce
import OpenPs3Ftp.Deadline
import OpenPs3Ftp.Arguments
import OpenPs3Ftp.Admission
import OpenPs3Ftp.Closing
import OpenPs3Ftp.Lifecycle.Exclusion
import OpenPs3Ftp.Lifecycle.Failure
import OpenPs3Ftp.Download
import OpenPs3Ftp.Upload
import OpenPs3Ftp.Directory
import OpenPs3Ftp.DataChannel
import OpenPs3Ftp.Restart
import OpenPs3Ftp.Renaming
import OpenPs3Ftp.Leaving
import OpenPs3Ftp.Descriptors.Ownership
import OpenPs3Ftp.Overflow
import OpenPs3Ftp.Messages
import OpenPs3Ftp.Durability
import OpenPs3Ftp.Reaction
import OpenPs3Ftp.Copying.Tree
import OpenPs3Ftp.Copying.Overlap
import OpenPs3Ftp.Utf8
import OpenPs3Ftp.Registered
import OpenPs3Ftp.Fairness
import OpenPs3Ftp.Touch
import OpenPs3Ftp.Creation
import OpenPs3Ftp.Destroy
import OpenPs3Ftp.Growing
import OpenPs3Ftp.Frame
import OpenPs3Ftp.Legacy.Connect
import OpenPs3Ftp.Legacy.Sequence
